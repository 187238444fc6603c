import ThriftModules.Output.Files
import ThriftModules.Idl.Namespace

/-!
# The output tree

* `Tree` : the output directory of a run, with the classes of the server in `java`, the script modules in `js` and the
  declaration modules in `ts`;
* `Tree.initialise` : an empty output tree in place of whatever was there;
* `Tree.mergeScripts` : all script modules joined into one.
-/

namespace ThriftModules.Output

set_option autoImplicit false

open FileSystem (DiskM inspect orFail)

def scriptSuffix : Text := ".js".toList

def declarationSuffix : Text := ".d.ts".toList

def mergedName : Text := "all.js".toList

/-- The output directory of a run. -/
structure Tree where
  root : Path
deriving DecidableEq, Repr

namespace Tree

def javaDir (tree : Tree) : Path := Path.join tree.root "java".toList

def scriptDir (tree : Tree) : Path := Path.join tree.root "js".toList

def declarationDir (tree : Tree) : Path := Path.join tree.root "ts".toList

/-- The script module of a namespace. The characters of a declared namespace are ASCII, and so they are its bytes in the
names of files. -/
def scriptModule (tree : Tree) (ns : Namespace) : Path := Path.join tree.scriptDir (ns ++ scriptSuffix)

def declarationModule (tree : Tree) (ns : Namespace) : Path :=
  Path.join tree.declarationDir (ns ++ declarationSuffix)

def dirs (tree : Tree) : List Path := [tree.javaDir, tree.scriptDir, tree.declarationDir]

def makeAll : List Path → DiskM OutputError Unit
  | [] => pure ()
  | dir :: rest => do
    orFail (.initialise dir) (FileSystem.makeDirs dir)
    makeAll rest

/-- An empty output tree at `root`, whatever was there removed first. -/
def initialise (root : Path) : DiskM OutputError Tree := do
  if (← get).pathExists root then orFail (.wipe root) (FileSystem.removeTree root)
  let tree : Tree := ⟨root⟩
  makeAll tree.dirs
  return tree

def lineClosed (text : Text) : Text := if text.getLast? = some '\n' then text else text ++ ['\n']

/-- The texts of modules one after the other, each closed by a line feed. -/
def mergedText (bodies : List Text) : Text := bodies.flatMap lineClosed

/-- All script modules of a tree joined into one, which takes their place; its path. -/
def mergeScripts (tree : Tree) : DiskM OutputError Path := do
  let modules ← inspect (listFiles · tree.scriptDir scriptSuffix)
  let bodies ← inspect (readFiles · modules)
  removeFiles modules
  let merged := Path.join tree.scriptDir mergedName
  writeAtomically merged (mergedText bodies)
  return merged

end Tree
end ThriftModules.Output

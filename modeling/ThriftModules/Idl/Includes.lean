import ThriftModules.Idl.Namespace

/-!
# Resolved includes

* `Edge` : one include of a source, with the file that it stands for and the namespace of that file;
* `Includes` : the edges of one source, by increasing include name; of two edges with one name the later stays;
* `Includes.namespaces` : the distinct namespaces of the included files.
-/

namespace ThriftModules.Idl

set_option autoImplicit false

structure Edge where
  /-- The base name in the include statement. -/
  name : Text
  /-- The path of the included file. -/
  path : Path
  /-- The namespace of the included file. -/
  target : Namespace
deriving DecidableEq, Repr

/-- `edge` put into a list that increases by name; an edge of the same name is replaced. -/
def insertEdge (edge : Edge) : List Edge → List Edge
  | [] => [edge]
  | other :: rest =>
    if edge.name < other.name then edge :: other :: rest
    else if edge.name = other.name then edge :: rest
    else other :: insertEdge edge rest

theorem mem_insertEdge {edge x : Edge} {edges : List Edge} (h : x ∈ insertEdge edge edges) :
    x = edge ∨ x ∈ edges := by
  fun_induction insertEdge edge edges <;> simp only [List.mem_cons] at h ⊢ <;> grind

theorem insertEdge_sorted {edge : Edge} {edges : List Edge} (h : edges.Pairwise (·.name < ·.name)) :
    (insertEdge edge edges).Pairwise (·.name < ·.name) := by
  fun_induction insertEdge edge edges with
  | case1 => simp
  | case2 other rest hlt =>
    refine List.pairwise_cons.2 ⟨fun x hx => ?_, h⟩
    rcases List.mem_cons.1 hx with rfl | hx
    · exact hlt
    · exact List.lt_trans hlt ((List.pairwise_cons.1 h).1 x hx)
  | case3 other rest hlt heq => simpa [heq] using h
  | case4 other rest hlt hne ih =>
    obtain ⟨ho, hr⟩ := List.pairwise_cons.1 h
    refine List.pairwise_cons.2 ⟨fun x hx => ?_, ih hr⟩
    rcases mem_insertEdge hx with rfl | hx
    · exact Decidable.byContradiction fun hn => hne (List.le_antisymm (List.not_lt.1 hn) (List.not_lt.1 hlt))
    · exact ho x hx

structure Includes where
  edges : List Edge
  sorted : edges.Pairwise (·.name < ·.name)

namespace Includes

def empty : Includes := ⟨[], .nil⟩

def insert (includes : Includes) (edge : Edge) : Includes :=
  ⟨insertEdge edge includes.edges, insertEdge_sorted includes.sorted⟩

/-- The includes with the given edges, where of two edges with one name the later stays. -/
def ofEdges (edges : List Edge) : Includes := edges.foldl insert empty

def namespaces (includes : Includes) : NameSet := .ofList (includes.edges.map Edge.target)

end Includes
end ThriftModules.Idl

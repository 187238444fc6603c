import ThriftModules.CommandLine.LogFilter
import ThriftModules.CommandLine.Invocation
import ThriftModules.Proofs.CommandLine.CompilerCalls
import ThriftModules.Proofs.Idl.FirstFault
import ThriftModules.Proofs.Idl.Included
import ThriftModules.Proofs.Module.Accounts
import ThriftModules.Proofs.Module.Blocks
import ThriftModules.Proofs.Module.Braces
import ThriftModules.Proofs.Module.Closures
import ThriftModules.Proofs.Module.Foreign
import ThriftModules.Proofs.Module.Headers
import ThriftModules.Proofs.Module.Joined
import ThriftModules.Proofs.Module.Literals
import ThriftModules.Proofs.Module.Meaning
import ThriftModules.Proofs.Module.ModulePaths
import ThriftModules.Proofs.Module.Positions
import ThriftModules.Proofs.Module.Readable
import ThriftModules.Proofs.Module.References
import ThriftModules.Proofs.Output.FailedMerge
import ThriftModules.Proofs.Run.Forgotten
import ThriftModules.Proofs.Run.Imports
import ThriftModules.Proofs.Run.Merged
import ThriftModules.Proofs.Run.Requests
import ThriftModules.Proofs.Script.Bodies
import ThriftModules.Proofs.Script.Bytes
import ThriftModules.Proofs.Script.LineEndings
import ThriftModules.Proofs.Script.Slices
import ThriftModules.Proofs.Script.Transparent
import ThriftModules.Proofs.Script.Values
import ThriftModules.Proofs.Idl.Declared
import ThriftModules.Proofs.FileSystem.Walked
import ThriftModules.Proofs.Idl.BlankedComments
import ThriftModules.Proofs.Idl.Views
import ThriftModules.Proofs.Run.InputTree

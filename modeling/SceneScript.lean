import SceneScript.Grammar.View
import SceneScript.Native.Probe
import SceneScript.Scope.Tree
import SceneScript.Main
import SceneScript.Proofs.Program.Append
import SceneScript.Proofs.Program.RoundTrip
import SceneScript.Proofs.Run.Defined
import SceneScript.Proofs.Run.Frames
import SceneScript.Proofs.Run.Idle
import SceneScript.Proofs.Run.Isolation
import SceneScript.Proofs.Run.Reach
import SceneScript.Proofs.Run.Located
import SceneScript.Proofs.Grammar.Completion
import SceneScript.Proofs.Token.Spans
import SceneScript.Proofs.Grammar.Layers
import SceneScript.Proofs.Program.Listing
import SceneScript.Proofs.Print.Rows
import SceneScript.Proofs.Run.Depth
import SceneScript.Proofs.Run.Unroll
import SceneScript.Proofs.Session.Clock
import SceneScript.Proofs.Run.Hush
import SceneScript.Proofs.Session.Playback
import SceneScript.Proofs.Session.Quiet
import SceneScript.Proofs.Scope.Tree
import SceneScript.Proofs.Token.Ignored
import SceneScript.Proofs.Run.Unfold
import SceneScript.Proofs.Program.Reindent
import SceneScript.Proofs.Token.Faults
import SceneScript.Proofs.Token.Hollow
import SceneScript.Proofs.Program.Bodies
import SceneScript.Proofs.Session.Chunks
import SceneScript.Proofs.Native.Drawing
import SceneScript.Proofs.Session.Groups
import SceneScript.Proofs.Program.Literals
import SceneScript.Proofs.Grammar.Walk
import SceneScript.Proofs.Grammar.Progress

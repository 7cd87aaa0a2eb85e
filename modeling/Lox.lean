import Lox.Token.Line
import Lox.Token.Scan
import Lox.Token.Dump
import Lox.Program.Form
import Lox.Main
import Lox.Proofs.Machine.Contract
import Lox.Proofs.Machine.Step
import Lox.Proofs.Machine.Scope
import Lox.Proofs.Program.Phrase
import Lox.Proofs.Program.Reads
import Lox.Proofs.Program.Sound
import Lox.Proofs.Program.Complete
import Lox.Proofs.Program.Derive
import Lox.Proofs.Program.Absorb
import Lox.Proofs.Program.Accept
import Lox.Proofs.Program.Documented
import Lox.Proofs.Program.Legal
import Lox.Proofs.Program.Render
import Lox.Proofs.Machine.Carried
import Lox.Proofs.Machine.Jump
import Lox.Proofs.Machine.Depth
import Lox.Proofs.Machine.Trait
import Lox.Proofs.Machine.Terminate
import Lox.Proofs.Machine.Lexical
import Lox.Proofs.Program.Joined
import Lox.Proofs.Machine.Joined
import Lox.Proofs.Machine.Course
import Lox.Proofs.Program.Trait
import Lox.Proofs.Store.Frames
import Lox.Proofs.Machine.This
import Lox.Proofs.Store.Chain
import Lox.Proofs.Token.Partition
import Lox.Proofs.Machine.Boxed
import Lox.Proofs.Session.Respaced
import Lox.Proofs.Token.Relexed
import Lox.Proofs.Token.Munch
import Lox.Proofs.Machine.Confined
import Lox.Proofs.Machine.Limited
import Lox.Proofs.Session.Rejected
import Lox.Proofs.Program.Ordered
import Lox.Proofs.Program.Recovery
import Lox.Proofs.Program.Contained
import Lox.Proofs.Program.Progress
import Lox.Proofs.Program.Checked
import Lox.Proofs.Program.Whole
import Lox.Proofs.Machine.Initializer
import Lox.Proofs.Machine.Returned
import Lox.Proofs.Machine.Construction
import Lox.Proofs.Machine.InProgress
import Lox.Proofs.Program.Nested
import Lox.Proofs.Machine.Ending
import Lox.Proofs.Machine.Desugar
import Lox.Proofs.Token.Dumped
import Lox.Proofs.Session.Located
import Lox.Proofs.Machine.Rooted
import Lox.Proofs.Session.Printed
import Lox.Proofs.Machine.MethodTable

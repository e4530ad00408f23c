import Lox.Heap.Lemmas
import Lox.Main
import Lox.Syntax.Outline
import Lox.Proofs.Scope.Place
import Lox.Proofs.Sequence
import Lox.Proofs.Scope.Rules
import Lox.Proofs.Scope.Walk
import Lox.Proofs.Syntax.WellFormed
import Lox.Proofs.Scope.Enforced
import Lox.Proofs.Scope.Visit
import Lox.Proofs.Scope.Accepted
import Lox.Proofs.Scope.Reading
import Lox.Proofs.Scope.Initializer
import Lox.Proofs.Scope.Member
import Lox.Proofs.Syntax.Grammar
import Lox.Proofs.Syntax.Reads
import Lox.Proofs.Syntax.Sound
import Lox.Proofs.Syntax.Parsed
import Lox.Proofs.Syntax.Arrives
import Lox.Proofs.Syntax.Complete
import Lox.Proofs.Syntax.Language
import Lox.Proofs.Run.Heap
import Lox.Proofs.Run.Task
import Lox.Proofs.Run.World
import Lox.Proofs.Run.Effect
import Lox.Proofs.Run.Sound
import Lox.Proofs.Run.Visit
import Lox.Proofs.Run.Log
import Lox.Proofs.Run.Closed
import Lox.Proofs.Run.Name
import Lox.Proofs.Run.Signal
import Lox.Proofs.Run.Frame
import Lox.Proofs.Run.Kept
import Lox.Proofs.Run.Super
import Lox.Proofs.Run.Edit
import Lox.Proofs.Run.Inert
import Lox.Proofs.Run.Getter
import Lox.Proofs.Class.Static
import Lox.Proofs.Class.Member
import Lox.Proofs.Class.Initializer
import Lox.Proofs.Run.Limit
import Lox.Proofs.Run.Overflow
import Lox.Proofs.Token.Lexeme
import Lox.Proofs.Token.Next
import Lox.Proofs.Token.Found
import Lox.Proofs.Token.Tiling
import Lox.Proofs.Alike.Content
import Lox.Proofs.Alike.Heap
import Lox.Proofs.Alike.Parse
import Lox.Proofs.Alike.Recovery
import Lox.Proofs.Alike.Run
import Lox.Proofs.Alike.Tokens
import Lox.Proofs.Alike.Session
import Lox.Proofs.Session.Host
import Lox.Proofs.Session.Undisturbed
import Lox.Proofs.Session.Pieces
import Lox.Proofs.Scope.Closing
import Lox.Proofs.Syntax.Passes
import Lox.Proofs.Syntax.Order
import Lox.Proofs.Scope.Unused
import Lox.Proofs.Rename.Tree
import Lox.Proofs.Rename.Code
import Lox.Proofs.Rename.Heap
import Lox.Proofs.Rename.Machine
import Lox.Proofs.Rename.Run
import Lox.Proofs.Rename.Session
import Lox.Proofs.Alike.Layout
import Lox.Proofs.Token.Stretch
import Lox.Proofs.Syntax.Laid
import Lox.Proofs.Syntax.Lays
import Lox.Proofs.Syntax.Laying
import Lox.Proofs.Syntax.Faithful
import Lox.Proofs.Syntax.Fault
import Lox.Proofs.Scope.Pointing
import Lox.Proofs.Alike.Fence
import Lox.Proofs.Syntax.Fuel
import Lox.Proofs.Syntax.Halting
import Lox.Proofs.Heap.Text
import Lox.Proofs.Scope.Lawful
import Lox.Proofs.Desugar.Place
import Lox.Proofs.Desugar.Code
import Lox.Proofs.Desugar.Heap
import Lox.Proofs.Desugar.Machine
import Lox.Proofs.Desugar.Run
import Lox.Proofs.Desugar.Session
import Lox.Proofs.Heap.Outward
import Lox.Proofs.Run.Arity
import Lox.Proofs.Scope.Restored
import Lox.Proofs.Heap.Grounded
import Lox.Proofs.Run.Grounded
import Lox.Proofs.Source.Lookahead

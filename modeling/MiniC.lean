import MiniC.Token.Lexer
import MiniC.Token.Layout
import MiniC.Tree.Outline
import MiniC.Tree.Inorder
import MiniC.Parse.CursorSession
import MiniC.Parse.Unfolding
import MiniC.Parse.Steady
import MiniC.Parse.Source
import MiniC.Grammar.Automaton
import MiniC.Grammar.Derivation
import MiniC.Grammar.Written
import MiniC.CommandLine.Report
import MiniC.Main
import MiniC.Proofs.Parse.Stretch
import MiniC.Proofs.Parse.Reading
import MiniC.Proofs.Parse.Accepting
import MiniC.Proofs.Parse.Program
import MiniC.Proofs.Grammar.Language
import MiniC.Proofs.Grammar.Simulation
import MiniC.Proofs.Grammar.Outcome
import MiniC.Proofs.Token.Cutting
import MiniC.Proofs.Token.Tokenizing
import MiniC.Proofs.Text.Place
import MiniC.Proofs.Token.Juncture
import MiniC.Proofs.Token.Faithful
import MiniC.Proofs.Grammar.Regrouping
import MiniC.Proofs.Grammar.Dialects
import MiniC.Proofs.Parse.Depth
import MiniC.Proofs.Parse.Threshold
import MiniC.Grammar.Printed
import MiniC.Proofs.Source.RoundTrip
import MiniC.Proofs.Grammar.Completion
import MiniC.Proofs.Parse.Incremental
import MiniC.Proofs.Parse.Prefix
import MiniC.Proofs.Parse.Session
import MiniC.Proofs.Parse.Functions
import MiniC.Proofs.Parse.Settling
import MiniC.Proofs.Parse.Stopping
import MiniC.Proofs.CommandLine.Agreement
import MiniC.Parse.Shape
import MiniC.Proofs.CommandLine.Scanning
import MiniC.Proofs.Token.Faults
import MiniC.Proofs.Token.Lines
import MiniC.Proofs.Parse.Steering
import MiniC.Proofs.Grammar.Nodes
import MiniC.Proofs.Source.Places
import MiniC.Proofs.Parse.Conservation
import MiniC.Proofs.Parse.Segment
import MiniC.Proofs.Parse.Frames
import MiniC.Proofs.Parse.Branches
import MiniC.Proofs.Grammar.Unclosed
import MiniC.Proofs.Token.Resuming
import MiniC.Proofs.Tree.Outline
import MiniC.Proofs.Tree.Paths
import MiniC.Proofs.Parse.UnmetStar
import MiniC.Proofs.Parse.CursorView

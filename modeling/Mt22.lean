import Mt22.Main
import Mt22.Tree.Sketch
import Mt22.Proofs.Script.Contract
import Mt22.Proofs.Script.Grammar
import Mt22.Proofs.Program.Alike
import Mt22.Proofs.Program.Print
import Mt22.Proofs.Script.Spacing
import Mt22.Proofs.Script.Join
import Mt22.Proofs.Script.RoundTrip
import Mt22.Proofs.Script.Chain
import Mt22.Proofs.Parsing.Ending
import Mt22.Proofs.Script.FirstFault
import Mt22.Proofs.Tree.Success
import Mt22.Proofs.Program.InOrder
import Mt22.Proofs.Program.Sound
import Mt22.Proofs.Program.Signs
import Mt22.Proofs.Script.Counts
import Mt22.Proofs.Script.NearestIf
import Mt22.Proofs.Script.Nested
import Mt22.Proofs.Script.Lexical
import Mt22.Proofs.Script.Json
import Mt22.Proofs.Script.Dump
import Mt22.Proofs.Script.Excerpt
import Mt22.Proofs.Script.Attribution
import Mt22.Proofs.Command.Agreement
import Mt22.Proofs.Command.BuiltJson
import Mt22.Proofs.Script.Flattening
import Mt22.Proofs.Script.Discover
import Mt22.Proofs.Script.Variable
import Mt22.Proofs.Script.Numeral
import Mt22.Proofs.Command.BuiltText
import Mt22.Proofs.Script.StartRule
import Mt22.Proofs.Script.DumpLines
import Mt22.Proofs.Token.Zone
import Mt22.Proofs.Tree.Vocabulary
import Mt22.Proofs.Parsing.Cut
import Mt22.Proofs.Script.Body
import Mt22.Proofs.Script.Position

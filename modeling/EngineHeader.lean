import EngineHeader.Main
import EngineHeader.Declaration.Printer
import EngineHeader.Declaration.Query
import EngineHeader.Proofs.Declaration.Recognition
import EngineHeader.Proofs.Directive.Blocks
import EngineHeader.Proofs.Directive.Meaning
import EngineHeader.Proofs.Directive.Cutting
import EngineHeader.Proofs.Declaration.Inversion
import EngineHeader.Proofs.Declaration.Native
import EngineHeader.Proofs.Declaration.RoundTrip
import EngineHeader.Proofs.Text.OpenComment
import EngineHeader.Proofs.Directive.Again
import EngineHeader.Proofs.Header.OpenComment
import EngineHeader.Proofs.Token.Ending
import EngineHeader.Proofs.Token.Reads
import EngineHeader.Proofs.Declaration.InStep
import EngineHeader.Proofs.Declaration.Completion
import EngineHeader.Proofs.Header.Layout
import EngineHeader.Proofs.Header.Continuation
import EngineHeader.Proofs.Directive.Plain
import EngineHeader.Proofs.Declaration.Moved
import EngineHeader.Proofs.Header.Direct
import EngineHeader.Proofs.Declaration.Placement
import EngineHeader.Proofs.Header.Comments
import EngineHeader.Proofs.Declaration.Joined
import EngineHeader.Proofs.Header.Joined
import EngineHeader.Proofs.Directive.Appended
import EngineHeader.Proofs.Directive.Joined
import EngineHeader.Proofs.Directive.Tested
import EngineHeader.Proofs.Text.Exact
import EngineHeader.Proofs.Token.Exact
import EngineHeader.Proofs.Directive.Faults
import EngineHeader.Proofs.Header.Exact
import EngineHeader.Proofs.Directive.Guard
import EngineHeader.Proofs.Json.Lexical
import EngineHeader.Proofs.Json.Reader
import EngineHeader.Proofs.Declaration.Decode
import EngineHeader.Proofs.Config.RoundTrip
import EngineHeader.Proofs.Header.Message
import EngineHeader.Proofs.CommandLine.Spelling
import EngineHeader.Proofs.CommandLine.Configured
import EngineHeader.Proofs.Checked.Header
import EngineHeader.Proofs.Declaration.Named
import EngineHeader.Proofs.Token.Iteration
import EngineHeader.Proofs.Token.Longest
import EngineHeader.Proofs.Token.Session
import EngineHeader.Proofs.Directive.Spaced
import EngineHeader.Proofs.FirstOfEach
import EngineHeader.Proofs.Declaration.Query
import EngineHeader.Proofs.Declaration.Numeral
import EngineHeader.Proofs.Declaration.Initialized

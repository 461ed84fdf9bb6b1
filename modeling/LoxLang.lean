import LoxLang.Main
import LoxLang.Proofs.Grammar.Soundness
import LoxLang.Proofs.Grammar.Completeness
import LoxLang.Proofs.Grammar.Exact
import LoxLang.Proofs.Grammar.Trees
import LoxLang.Proofs.Token.Lines
import LoxLang.Proofs.Eval.Safety
import LoxLang.Proofs.Session.Outcome
import LoxLang.Proofs.Number.ReadBack
import LoxLang.Proofs.Token.Lexeme
import LoxLang.Proofs.Node.RoundTrip
import LoxLang.Proofs.Eval.Likeness
import LoxLang.Proofs.Eval.Steady
import LoxLang.Proofs.Node.Meaning
import LoxLang.Proofs.Scope.History
import LoxLang.Proofs.Token.Join
import LoxLang.Proofs.Grammar.Relabel
import LoxLang.Proofs.Session.Joined
import LoxLang.Proofs.Number.Scientific
import LoxLang.Proofs.Json.Numerals
import LoxLang.Proofs.Json.RoundTrip
import LoxLang.Proofs.Document.RoundTrip
import LoxLang.Proofs.Document.Parsed
import LoxLang.Proofs.Cli.Directory
import LoxLang.Proofs.Cli.Documents
import LoxLang.Proofs.Eval.Frame
import LoxLang.Proofs.Eval.Unwinding
import LoxLang.Proofs.Eval.Tracing
import LoxLang.Proofs.Session.Tracing
import LoxLang.Proofs.Grammar.Returns
import LoxLang.Proofs.Grammar.Depth
import LoxLang.Proofs.Session.Returns
import LoxLang.Proofs.Document.Exact
import LoxLang.Proofs.Token.Lexicon
import LoxLang.Proofs.Token.Cover
import LoxLang.Proofs.Eval.Closed
import LoxLang.Proofs.Eval.Output
import LoxLang.Proofs.Session.Prompt
import LoxLang.Proofs.Scope.Alignment
import LoxLang.Proofs.Eval.Alignment
import LoxLang.Proofs.Eval.ForLoop
import LoxLang.Proofs.Grammar.Lookahead
import LoxLang.Proofs.Grammar.Guarded
import LoxLang.Proofs.Grammar.Closing
import LoxLang.Proofs.Grammar.Sequence
import LoxLang.Proofs.Grammar.Isolation
import LoxLang.Proofs.Grammar.Containment
import LoxLang.Proofs.Grammar.Completion
import LoxLang.Proofs.Grammar.Prefixes
import LoxLang.Proofs.Document.Failures
import LoxLang.Proofs.Cli.Refusal
import LoxLang.Proofs.Scope.ReadWrite
import LoxLang.Proofs.Session.Records
import LoxLang.Proofs.Token.Offsets
import LoxLang.Proofs.Grammar.Indexed
import LoxLang.Proofs.Grammar.Tracking
import LoxLang.Proofs.Grammar.Inside
import LoxLang.Proofs.Token.Canonical
import LoxLang.Proofs.Number.Source
import LoxLang.Proofs.Eval.Watch
import LoxLang.Proofs.Eval.Watching
import LoxLang.Proofs.Session.Timeline
import LoxLang.Proofs.Session.Scopes
import LoxLang.Proofs.Session.Calls

import DeepScope.Batch.Run
import DeepScope.CommandLine
import DeepScope.Main
import DeepScope.Session
import DeepScope.StyleSheet.Reparse
import DeepScope.Proofs.StyleSheet.Append
import DeepScope.Proofs.Token.Separation
import DeepScope.Proofs.StyleSheet.Canonical
import DeepScope.Proofs.StyleSheet.Charset
import DeepScope.Proofs.StyleSheet.Headed
import DeepScope.Proofs.StyleSheet.Respaced
import DeepScope.Proofs.StyleSheet.Scoped
import DeepScope.Proofs.Token.Cover
import DeepScope.Proofs.StyleSheet.Nesting
import DeepScope.Proofs.Value.Lossless
import DeepScope.Proofs.Layout.Tokens
import DeepScope.Proofs.Batch.Run
import DeepScope.Proofs.Token.Replay
import DeepScope.Proofs.Batch.Isolation
import DeepScope.Proofs.Encoding.Label
import DeepScope.Proofs.StyleSheet.Label
import DeepScope.Proofs.Token.Fault
import DeepScope.Proofs.Script.Place
import DeepScope.Proofs.StyleSheet.Place
import DeepScope.Proofs.Token.NumeralGrammar
import DeepScope.Proofs.Value.Gaps
import DeepScope.Proofs.Value.ConditionLayout
import DeepScope.Proofs.Files.Components
import DeepScope.Proofs.Files.OutputNames

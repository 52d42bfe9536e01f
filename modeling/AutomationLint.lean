import AutomationLint.Codec
import AutomationLint.Main
import AutomationLint.Proofs.Check
import AutomationLint.Proofs.CommandLine
import AutomationLint.Proofs.OutputLines
import AutomationLint.Proofs.Record.Collecting
import AutomationLint.Proofs.Record.Edits
import AutomationLint.Proofs.Record.Findings
import AutomationLint.Proofs.Record.Labels
import AutomationLint.Proofs.Record.Outline
import AutomationLint.Proofs.Record.Shorthand
import AutomationLint.Proofs.Stream.ByteOrderMark
import AutomationLint.Proofs.Stream.Composition
import AutomationLint.Proofs.Stream.Documents
import AutomationLint.Proofs.Stream.LineEnds
import AutomationLint.Proofs.Stream.Positions
import AutomationLint.Proofs.Stream.Skipping
import AutomationLint.Proofs.Stream.Transparency
import AutomationLint.Proofs.Yaml.RoundTrip
import AutomationLint.Yaml.Writer

import CssHints.Main
import CssHints.Proofs.Braces
import CssHints.Proofs.Concatenation
import CssHints.Proofs.Endless
import CssHints.Proofs.Fidelity
import CssHints.Proofs.FileEffects
import CssHints.Proofs.Groups
import CssHints.Proofs.Inspection
import CssHints.Proofs.LongestMatch
import CssHints.Proofs.Mapping
import CssHints.Proofs.Meaning
import CssHints.Proofs.PassThrough
import CssHints.Proofs.Plain
import CssHints.Proofs.Rejoining
import CssHints.Proofs.Relocation
import CssHints.Proofs.Repetition
import CssHints.Proofs.Splice
import CssHints.Proofs.TreeShape
import CssHints.Proofs.Trimming
import CssHints.Session
import CssHints.Proofs.CommaList

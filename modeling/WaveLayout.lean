import WaveLayout.Main
import WaveLayout.Proofs.Decoding
import WaveLayout.Proofs.Delivery
import WaveLayout.Proofs.Tails
import WaveLayout.Proofs.Paths
import WaveLayout.Proofs.Containment
import WaveLayout.Proofs.Attribution
import WaveLayout.Proofs.Agreement
import WaveLayout.Proofs.LineEnds
import WaveLayout.Proofs.Sensitivity
import WaveLayout.Proofs.QuotedEntries
import WaveLayout.Proofs.Runs
import WaveLayout.Proofs.Spacing
import WaveLayout.Proofs.Printing
import WaveLayout.Proofs.Resolution
import WaveLayout.Proofs.Accounting
import WaveLayout.Proofs.Counting
import WaveLayout.Proofs.Insertion
import WaveLayout.Proofs.Rerun
import WaveLayout.Proofs.Keys
import WaveLayout.Proofs.Layering
import WaveLayout.Proofs.Schema
import WaveLayout.Proofs.Supply
import WaveLayout.Proofs.Arrangements

import Sokoban.Main
import Sokoban.Proofs.Bisimulation
import Sokoban.Proofs.FixedChances
import Sokoban.Proofs.NoiseMode
import Sokoban.Proofs.Prism.Generated
import Sokoban.Proofs.Document.Unpacking
import Sokoban.Proofs.Document.Concatenation
import Sokoban.Proofs.Encoding.Goal
import Sokoban.Proofs.Encoding.Occupancy
import Sokoban.Proofs.CommandLine
import Sokoban.Proofs.Checked.Generation
import Sokoban.Proofs.Layout
import Sokoban.Proofs.Refolding
import Sokoban.Proofs.Prism.Values
import Sokoban.Proofs.Jani
import Sokoban.Proofs.Json
import Sokoban.Proofs.Division
import Sokoban.Proofs.Probability.Rereading
import Sokoban.Proofs.Probability.Offenses
import Sokoban.Proofs.CellSet.History

import Snippets.Body.Printer
import Snippets.Disk.Memory
import Snippets.Main
import Snippets.Proofs.Bystanders
import Snippets.Proofs.Clashes
import Snippets.Proofs.Filling
import Snippets.Proofs.Crossing
import Snippets.Proofs.FollowingText
import Snippets.Proofs.Neighbours
import Snippets.Proofs.Evaluation
import Snippets.Proofs.Printing
import Snippets.Proofs.Moves
import Snippets.Proofs.Lifetimes
import Snippets.Proofs.Backtracking
import Snippets.Proofs.Templates
import Snippets.Proofs.AtOnce
import Snippets.Proofs.Effects
import Snippets.Proofs.AnySurface
import Snippets.Proofs.OneShot
import Snippets.Proofs.Agreement
import Snippets.Proofs.Jumps
import Snippets.Proofs.GroupPlaces
import Snippets.Proofs.Settling
import Snippets.Proofs.FixedPoint
import Snippets.Proofs.SyncedTwice
import Snippets.Proofs.Triggers
import Snippets.Proofs.LineStarts
import Snippets.Proofs.KeptReadings
import Snippets.Proofs.OwedTicks
import Snippets.Proofs.Expansion
import Snippets.Proofs.Indentation
import Snippets.Proofs.CarriedOffsets
import Snippets.Proofs.Redraws
import Snippets.Proofs.Refusals
import Snippets.Proofs.Enclosure
import Snippets.Proofs.Cycling
import Snippets.Proofs.Overriding
import Snippets.Proofs.Positions
import Snippets.Proofs.PassedOver

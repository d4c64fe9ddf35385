import QutimConfig.Variant
import QutimConfig.Compare
import QutimConfig.Atom
import QutimConfig.Level
import QutimConfig.Config
import QutimConfig.Source
import QutimConfig.World
import QutimConfig.Proofs.Region
import QutimConfig.Proofs.Heap
import QutimConfig.Proofs.Cursor
import QutimConfig.Proofs.Invariant
import QutimConfig.Proofs.Layers
import QutimConfig.Proofs.Effects
import QutimConfig.Proofs.Steps
import QutimConfig.Proofs.Saver
import QutimConfig.Proofs.Cache
import QutimConfig.Proofs.Derived
import QutimConfig.Proofs.Shape
import QutimConfig.Proofs.RoundTrip
import QutimConfig.Proofs.Path
import QutimConfig.Proofs.Write
import QutimConfig.Proofs.Names
import QutimConfig.Proofs.Enumerate
import QutimConfig.Proofs.Shaped
import QutimConfig.Proofs.Outline
import QutimConfig.Proofs.WriteBack
import QutimConfig.Proofs.Frame
import QutimConfig.Proofs.Arrays
import QutimConfig.Proofs.ReadOnly
import QutimConfig.Proofs.Persist
import QutimConfig.Proofs.Isolation
import QutimConfig.Proofs.Reads
import QutimConfig.Proofs.Navigation
import QutimConfig.Proofs.Naming
import QutimConfig.Proofs.Clone
import QutimConfig.Proofs.Interleaving

import HashBench.Library.RoundUp
import HashBench.Khash.Refinement
import HashBench.Library.Circle
import HashBench.Library.Buffer
import HashBench.Library.Triangular
import HashBench.Library.Counted
import HashBench.Blueprint
import HashBench.Driver.Erasures
import HashBench.Driver.Coverage
import HashBench.Driver.Main
import HashBench.Tommyds.Hashtbl
import HashBench.MlibDict.Safety
import HashBench.MlibDict.Refinement
import HashBench.MlibDictOa.Strings
import HashBench.StbDs.EmptySlot
import HashBench.Fph.SeedHash
import HashBench.Fph.Arena
import HashBench.Driver.Graph
import HashBench.Driver.Separators
import HashBench.Blueprints.Murmur
import HashBench.Emilib2O.Few
import HashBench.Blueprints.UniqueKeys
import HashBench.KeyTraits.Traits
import HashBench.KeyTraits.Lawful
import HashBench.Driver.Heatmap
import HashBench.Driver.TrimmedMean
import HashBench.Verstable.Iterate
import HashBench.UnorderedDense.Bulk

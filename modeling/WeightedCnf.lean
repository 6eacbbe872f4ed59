import WeightedCnf.Main
import WeightedCnf.Proofs.Additions
import WeightedCnf.Proofs.BrokenLists
import WeightedCnf.Proofs.CachetWeights
import WeightedCnf.Proofs.DeterminedVariables
import WeightedCnf.Proofs.DyadicBounds
import WeightedCnf.Proofs.DyadicExactness
import WeightedCnf.Proofs.EnumeratedCounts
import WeightedCnf.Proofs.Enumeration
import WeightedCnf.Proofs.ExplicitFormat
import WeightedCnf.Proofs.FailedReads
import WeightedCnf.Proofs.FaithfulReading
import WeightedCnf.Proofs.ListedWeights
import WeightedCnf.Proofs.NearestRounding
import WeightedCnf.Proofs.OrderedSupport
import WeightedCnf.Proofs.ReadingProgress
import WeightedCnf.Proofs.ReducibleFormulas
import WeightedCnf.Proofs.ReductionBlocks
import WeightedCnf.Proofs.ReportedBounds
import WeightedCnf.Proofs.RoundTrip
import WeightedCnf.Proofs.StreamRequests
import WeightedCnf.Proofs.Unweighted
import WeightedCnf.Proofs.Verification
import WeightedCnf.Proofs.WeightOrder
import WeightedCnf.Proofs.WeightValues
import WeightedCnf.Run.Directory
import WeightedCnf.Stream.Plain

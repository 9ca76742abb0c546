import FlowraValidator.AccountsDb.AncientPacking
import FlowraValidator.AccountsDb.IndexCleaning
import FlowraValidator.BankingStage.BundleOvertaking
import FlowraValidator.BankingStage.EntryBatches
import FlowraValidator.Consensus.LatestVotes
import FlowraValidator.Consensus.Tower
import FlowraValidator.Consensus.Commitment
import FlowraValidator.EpochRewards.Recalculation
import FlowraValidator.EpochRewards.StakePoints
import FlowraValidator.Gossip.Convergence
import FlowraValidator.Repair.DuplicateResolution
import FlowraValidator.Runtime.AlreadyProcessed
import FlowraValidator.Runtime.RankMap
import FlowraValidator.TransactionView.Sanitize
import FlowraValidator.UnifiedScheduler.FifoOrder
import FlowraValidator.UnifiedScheduler.Totality
import FlowraValidator.VoteProgram.EpochCredits
import FlowraValidator.VoteProgram.IncrementalVotes
import FlowraValidator.Votor.CertificateVerify
import FlowraValidator.Votor.ConsensusRewards
import FlowraValidator.Votor.Migration
import FlowraValidator.Votor.OrderIndependence
import FlowraValidator.Consensus.ForkHistory

import ScopedFlow.Main
import ScopedFlow.Proofs.Versions
import ScopedFlow.Proofs.Returning
import ScopedFlow.Proofs.Conservation
import ScopedFlow.Proofs.ArgumentOrder
import ScopedFlow.Proofs.External
import ScopedFlow.Proofs.SlotAgreement
import ScopedFlow.Proofs.Outline
import ScopedFlow.Proofs.StatementLiterals
import ScopedFlow.Proofs.Stale
import ScopedFlow.Proofs.Cycles
import ScopedFlow.Proofs.Composition
import ScopedFlow.Proofs.Histories
import ScopedFlow.Proofs.Nesting
import ScopedFlow.Proofs.ReadBack

import TreeAsm.Main
import TreeAsm.Proofs.Arrangement
import TreeAsm.Proofs.CallContract
import TreeAsm.Proofs.CommandRuns
import TreeAsm.Proofs.EntryClash
import TreeAsm.Proofs.GlobalCells
import TreeAsm.Proofs.Interning
import TreeAsm.Proofs.Preservation
import TreeAsm.Proofs.Renumbering
import TreeAsm.Proofs.Respelling
import TreeAsm.Proofs.Resumption
import TreeAsm.Proofs.Returns
import TreeAsm.Proofs.Sessions
import TreeAsm.Proofs.Spellings
import TreeAsm.Proofs.StackHeights
import TreeAsm.Proofs.StringConstants

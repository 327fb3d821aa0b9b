import TemporalHorizon.StableModel.Search
import TemporalHorizon.Unrolling

/-!
# Reports on an encoder

What an encoder has done so far, in a form that can be shown: its ground atoms by
literal, its carriers with the numbers of their formulas, and the program that
its rules make up.
-/

namespace TemporalHorizon
namespace Encoder

/-- The number of a formula. -/
def numberOf (encoder : Encoder) (f : Formula) : Nat := (encoder.store.intern f).1.index

/-- The ground atoms with their literals, in the order of the literals. -/
def groundAtoms (encoder : Encoder) : List (Key × Lit) :=
  Ordered.ofList (fun a b => (Lit.order a.2 b.2).then (GroundTable.byKey a b))
    encoder.ground.toList

/-- The program made up of rules of this encoder and its free externals.  If
asked, every ground atom that no rule derives is left open by a choice. -/
def program (encoder : Encoder) (rules : List Rule) (leaveOpen : Bool) : Program :=
  let derived := Program.heads rules
  let underived := (encoder.groundAtoms.map fun entry => entry.2.atom).filter fun atom =>
    !derived.contains atom
  let choices := if leaveOpen then underived.map Rule.choice else []
  encoder.edge.externals.foldl (fun program external => program.addFree external.lit.atom)
    ((Program.empty.addRules rules).addRules choices)

end Encoder
end TemporalHorizon

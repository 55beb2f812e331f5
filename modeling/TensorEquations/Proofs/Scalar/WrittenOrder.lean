import Mathlib
import TensorEquations.Proofs.Scalar.Order

/-!
# Written order is an order

The orders in which scalars are stored are oriented and transitive, also where exponents are negative.

* `Entry`, `compareFactors_eq` — two products are compared power by power like words, where the end of a
  product comes behind all positive powers and in front of all others.
* The instances for `Base.order`, `compareFactors` and `Term.order`.
-/

namespace TensorEquations

open Std (OrientedCmp OrientedOrd TransCmp TransOrd)

/-- An order of what elements are mapped to. -/
theorem transCmp_comap {α β : Type} (cmp : α → α → Ordering) [TransCmp cmp] (f : β → α) :
    TransCmp fun a b => cmp (f a) (f b) where
  eq_swap := OrientedCmp.eq_swap
  isLE_trans := TransCmp.isLE_trans

/-! ## Bases -/

theorem transCmp_rational : TransCmp fun p q : Rat => compareOfLessAndEq p q :=
  TransOrd.compareOfLessAndEq_of_antisymm_of_trans_of_total_of_not_le le_antisymm le_trans le_total not_le

instance : TransCmp KeyPart.order where
  eq_swap {a b} := by
    cases a <;> cases b <;>
      first | rfl | exact OrientedOrd.eq_swap | exact transCmp_rational.eq_swap
  isLE_trans {a b c} hab hbc := by
    cases a <;> cases b <;> cases c <;> simp only [KeyPart.order] at hab hbc ⊢ <;>
      first
      | exact TransOrd.isLE_trans hab hbc
      | exact transCmp_rational.isLE_trans hab hbc
      | contradiction
      | rfl

instance : TransCmp Base.order where
  eq_swap {a b} := by
    have hkeys : TransCmp (List.compareLex KeyPart.order) := inferInstance
    cases a <;> cases b <;> first | rfl | exact OrientedOrd.eq_swap | exact hkeys.eq_swap
  isLE_trans {a b c} hab hbc := by
    have hkeys : TransCmp (List.compareLex KeyPart.order) := inferInstance
    cases a <;> cases b <;> cases c <;> simp only [Base.order] at hab hbc ⊢ <;>
      first
      | exact TransOrd.isLE_trans hab hbc
      | exact hkeys.isLE_trans hab hbc
      | contradiction
      | rfl

/-! ## Products -/

/-- A power of a product, or the end of the product. -/
inductive Entry where
  | positive (f : Factor Base)
  | ending
  | other (f : Factor Base)

/-- Powers by their bases; of one base the higher exponent comes first. -/
def ascending : Factor Base → Factor Base → Ordering :=
  compareLex (fun f g => f.base.order g.base) fun f g => compare g.exponent f.exponent

/-- Powers against their bases; of one base the higher exponent comes first. -/
def descending : Factor Base → Factor Base → Ordering :=
  compareLex (fun f g => g.base.order f.base) fun f g => compare g.exponent f.exponent

instance : TransCmp (fun f g : Factor Base => f.base.order g.base) := transCmp_comap Base.order Factor.base

instance : TransCmp (fun f g : Factor Base => compare g.exponent f.exponent) :=
  have h : TransCmp (fun f g : Factor Base => compare f.exponent g.exponent) := transCmp_comap compare Factor.exponent
  h.opposite

instance : TransCmp ascending := inferInstanceAs (TransCmp (compareLex _ _))

instance : TransCmp descending :=
  have _ : TransCmp (fun f g : Factor Base => g.base.order f.base) := .opposite
  inferInstanceAs (TransCmp (compareLex _ _))

/-- Positive powers by their bases, other powers against their bases. -/
def Entry.order : Entry → Entry → Ordering
  | positive f, positive g => ascending f g
  | positive _, _ => .lt
  | _, positive _ => .gt
  | ending, ending => .eq
  | ending, _ => .lt
  | _, ending => .gt
  | other f, other g => descending f g

instance : TransCmp Entry.order where
  eq_swap {a b} := by
    cases a <;> cases b <;>
      first
      | rfl
      | exact (inferInstance : OrientedCmp ascending).eq_swap
      | exact (inferInstance : OrientedCmp descending).eq_swap
  isLE_trans {a b c} hab hbc := by
    cases a <;> cases b <;> cases c <;> simp only [Entry.order] at hab hbc ⊢ <;>
      first | exact TransCmp.isLE_trans hab hbc | contradiction | rfl

def Factor.entry (f : Factor Base) : Entry := if 0 < f.exponent then .positive f else .other f

/-- The powers of a product and its end. -/
def entries (fs : List (Factor Base)) : List Entry := fs.map Factor.entry ++ [.ending]

/-- Of two exponents the higher one comes first. -/
theorem exponents_compare (e d : Int) (o : Ordering) :
    (if e = d then o else if d < e then .lt else .gt) = (compare d e).then o := by
  rcases Int.lt_trichotomy d e with h | rfl | h
  · rw [if_neg (by omega), if_pos h, Int.compare_eq_lt.mpr h]
    rfl
  · rw [if_pos rfl, Int.compare_eq_eq.mpr rfl]
    rfl
  · rw [if_neg (by omega), if_neg (by omega), Int.compare_eq_gt.mpr h]
    rfl

/-- **Products are compared entry by entry.** -/
theorem compareFactors_eq : ∀ fs gs : List (Factor Base),
    compareFactors fs gs = List.compareLex Entry.order (entries fs) (entries gs)
  | [], [] => rfl
  | [], g :: gs => by
    simp only [compareFactors, entries, List.map_nil, List.map_cons, List.nil_append, List.cons_append,
      List.compareLex_cons_cons, Factor.entry]
    split <;> rfl
  | f :: fs, [] => by
    simp only [compareFactors, entries, List.map_nil, List.map_cons, List.nil_append, List.cons_append,
      List.compareLex_cons_cons, Factor.entry]
    split <;> rfl
  | f :: fs, g :: gs => by
    have ih := compareFactors_eq fs gs
    simp only [compareFactors, entries, List.map_cons, List.cons_append, List.compareLex_cons_cons,
      Factor.entry] at ih ⊢
    rw [ih]
    have hswap : g.base.order f.base = (f.base.order g.base).swap := OrientedCmp.eq_swap
    rw [exponents_compare]
    by_cases hf : 0 < f.exponent <;> by_cases hg : 0 < g.exponent <;>
      cases hb : f.base.order g.base <;>
      simp only [hf, hg, hb, hswap, if_true, if_false, Entry.order, ascending, descending, compareLex,
        Ordering.swap, Ordering.then]
    · rw [Int.compare_eq_lt.mpr (by omega)]
    · rw [Int.compare_eq_gt.mpr (by omega)]

instance : TransCmp compareFactors := by
  have h : compareFactors = fun fs gs => List.compareLex Entry.order (entries fs) (entries gs) :=
    funext fun fs => funext fun gs => compareFactors_eq fs gs
  rw [h]
  exact transCmp_comap (List.compareLex Entry.order) entries

/-! ## Terms -/

instance : TransCmp Term.order :=
  have _ : TransCmp (fun t u : Term Base => compareFactors t.factors u.factors) :=
    transCmp_comap compareFactors Term.factors
  have _ : TransCmp (fun t u : Term Base => compare t.isInfiniteProduct u.isInfiniteProduct) :=
    transCmp_comap compare Term.isInfiniteProduct
  inferInstanceAs (TransCmp (compareLex _ _))

end TensorEquations

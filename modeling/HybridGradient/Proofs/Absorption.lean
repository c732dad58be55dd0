import HybridGradient.Optimality
import HybridGradient.Proofs.BinaryScalar

/-!
# Values that absorb

What is no number stays no number, whatever is added to it, subtracted from it or multiplied
by it, and so does its root. Of what is not finite the same can be said: it may become no
number, but never a finite one. A value of either kind therefore shows in every sum of products
that it takes part in, and an iterate with such a component shows it in its error.

* `Absorbing`: a property that goes over from an operand to the result;
* `Absorbing.error_of_primal`, `Absorbing.error_of_dual`: what a component of an iterate
  hands on to the error;
* `SignedBinary`: the lawful scalars whose differences, negatives and hypotenuses are
  those of the format, too, with the two instances;
* `Binary.absorbing_undefined`, `Binary.absorbing_not_finite`: the two properties.
-/

namespace HybridGradient

open Extended Float.Model Rounding

/-! ### Components with a property -/

namespace Vec

variable {α β γ : Type}

/-- A component of a vector has a property. -/
def At (P : α → Prop) (x : Vec α) (j : ℕ) : Prop := ∃ h : j < x.size, P x[j]

variable {P : α → Prop} {Q : β → Prop} {R : γ → Prop} {x : Vec α} {y : Vec β} {j : ℕ}

theorem at_iff_getElem? : At P x j ↔ ∃ a, x[j]? = some a ∧ P a := by
  constructor
  · rintro ⟨h, hP⟩
    exact ⟨x[j], Array.getElem?_eq_getElem h, hP⟩
  · rintro ⟨a, ha, hP⟩
    obtain ⟨h, rfl⟩ := Array.getElem?_eq_some_iff.1 ha
    exact ⟨h, hP⟩

theorem exists_at_iff : (∃ j, At P x j) ↔ ∃ a ∈ x, P a := by
  constructor
  · rintro ⟨j, h, hj⟩
    exact ⟨x[j], Array.getElem_mem h, hj⟩
  · rintro ⟨a, ha, hP⟩
    obtain ⟨j, h, rfl⟩ := Array.mem_iff_getElem.1 ha
    exact ⟨j, h, hP⟩

theorem At.map (h : At P x j) {f : α → β} (hf : ∀ a, P a → Q (f a)) : At Q (x.map f) j := by
  obtain ⟨hj, h⟩ := h
  refine ⟨by rwa [Array.size_map], ?_⟩
  rw [Array.getElem_map]
  exact hf _ h

theorem At.mapIdx (h : At P x j) {f : ℕ → α → β} (hf : ∀ i a, P a → Q (f i a)) :
    At Q (x.mapIdx f) j := by
  obtain ⟨hj, h⟩ := h
  refine ⟨by rwa [Array.size_mapIdx], ?_⟩
  rw [Array.getElem_mapIdx]
  exact hf _ _ h

theorem At.zipWith_left (h : At P x j) (hy : j < y.size) {f : α → β → γ}
    (hf : ∀ a b, P a → R (f a b)) : At R (Array.zipWith f x y) j := by
  obtain ⟨hj, h⟩ := h
  refine ⟨by rw [Array.size_zipWith]; exact lt_min hj hy, ?_⟩
  rw [Array.getElem_zipWith]
  exact hf _ _ h

theorem At.zipWith_right (h : At Q y j) (hx : j < x.size) {f : α → β → γ}
    (hf : ∀ a b, Q b → R (f a b)) : At R (Array.zipWith f x y) j := by
  obtain ⟨hj, h⟩ := h
  refine ⟨by rw [Array.size_zipWith]; exact lt_min hx hj, ?_⟩
  rw [Array.getElem_zipWith]
  exact hf _ _ h

end Vec

/-! ### Properties that are handed on -/

variable {α : Type} [Scalar α]

/-- A property of scalars that a sum, a difference and a product have if an operand has it, and
    a magnitude and a square root likewise. -/
structure Absorbing (Bad : α → Prop) : Prop where
  add {x y : α} (h : Bad x ∨ Bad y) : Bad (x + y)
  sub {x y : α} (h : Bad x ∨ Bad y) : Bad (x - y)
  mul {x y : α} (h : Bad x ∨ Bad y) : Bad (x * y)
  abs {x : α} (h : Bad x) : Bad (Scalar.abs x)
  sqrt {x : α} (h : Bad x) : Bad (Scalar.sqrt x)

namespace Absorbing

variable {Bad : α → Prop} (hBad : Absorbing Bad) {x y : Vec α} {j : ℕ}

include hBad

/-- A sum has the property if a summand has it. -/
theorem sum (h : Vec.At Bad x j) : Bad (Vec.sum x) := by
  -- By induction on the components, with the sum so far as one summand more.
  have key (as : List α) (t : α) (h : Bad t ∨ ∃ a ∈ as, Bad a) : Bad (as.foldl (· + ·) t) := by
    induction as generalizing t with
    | nil => simpa using h
    | cons a as ih =>
      refine ih (t + a) ?_
      rcases h with h | ⟨b, hb, h⟩
      · exact .inl (hBad.add (.inl h))
      · rcases List.mem_cons.1 hb with rfl | hb
        · exact .inl (hBad.add (.inr h))
        · exact .inr ⟨b, hb, h⟩
  obtain ⟨a, ha, h⟩ := Vec.exists_at_iff.1 ⟨j, h⟩
  rw [Vec.sum, ← Array.foldl_toList]
  exact key _ _ (.inr ⟨a, ha.val, h⟩)

theorem inner_left (h : Vec.At Bad x j) (hy : j < y.size) : Bad (Vec.inner x y) :=
  hBad.sum (h.zipWith_left hy fun _ _ h => hBad.mul (.inl h))

theorem inner_right (h : Vec.At Bad y j) (hx : j < x.size) : Bad (Vec.inner x y) :=
  hBad.sum (h.zipWith_right hx fun _ _ h => hBad.mul (.inr h))

theorem norm (h : Vec.At Bad x j) : Bad (Vec.norm x) :=
  hBad.sqrt (hBad.inner_left h h.1)

/-- A component to which a multiple is added keeps the property. -/
theorem add_at (h : Vec.At Bad y j) (alpha : α) (hx : j < x.size) :
    Vec.At Bad (Vec.add alpha x y) j :=
  h.zipWith_left hx fun _ _ h => hBad.add (.inl h)

/-- A component to which the shares of entries are added keeps the property. -/
theorem accumulate_at (target source : Entry α → ℕ) (alpha : α) (v : Vec α)
    (entries : List (Entry α)) (h : Vec.At Bad y j) :
    Vec.At Bad (SparseMatrix.accumulate target source alpha v entries y) j := by
  induction entries generalizing y with
  | nil => exact h
  | cons e es ih =>
    refine ih ?_
    obtain ⟨hj, h⟩ := h
    refine ⟨by rwa [Array.size_modify], ?_⟩
    rw [Array.getElem_modify]
    split
    · exact hBad.add (.inl h)
    · exact h

/-- What is kept of a vector at the start of a product is a multiple of it. -/
theorem preset_at {beta : α} (hbeta : (beta == 0) = false) (h : Vec.At Bad y j) :
    Vec.At Bad (SparseMatrix.preset beta y) j := by
  rw [SparseMatrix.preset, hbeta]
  exact h.map fun _ h => hBad.mul (.inr h)

/-! #### Records -/

variable {s : Scaled α} {z move : Iterate α} {iteration : ℕ} {passes elapsed : Float}

/-- The error has the property if the gap or a residual has it. -/
theorem error_of_part
    (h : Bad (s.evaluate z move iteration passes elapsed).primalResidual ∨
      Bad (s.evaluate z move iteration passes elapsed).dualResidual ∨
      Bad (s.evaluate z move iteration passes elapsed).gap) :
    Bad (s.evaluate z move iteration passes elapsed).error := by
  refine hBad.sqrt (hBad.add ?_)
  rcases h with h | h | h
  · exact .inl (hBad.add (.inl (hBad.mul (.inl h))))
  · exact .inl (hBad.add (.inr (hBad.mul (.inl h))))
  · exact .inr (hBad.mul (.inl h))

/-- The error has the property if one of the objectives has it. -/
theorem error_of_objective
    (h : Bad (s.primalObjective z.primal) ∨ Bad (s.dualObjective z.dual)) :
    Bad (s.evaluate z move iteration passes elapsed).error :=
  hBad.error_of_part (.inr (.inr (hBad.abs (hBad.sub h))))

/-- A component of the point hands the property on to the error, and so does its cost. -/
theorem error_of_primal (hz : z.primal.size = s.problem.cols)
    (h : Vec.At Bad z.primal j ∨ Vec.At Bad s.problem.objective j) :
    Bad (s.evaluate z move iteration passes elapsed).error := by
  have hsize : z.primal.size = s.problem.objective.size := hz.trans s.problem.size_objective.symm
  refine hBad.error_of_objective (.inl ?_)
  rcases h with h | h
  · exact hBad.inner_right h (hsize ▸ h.1)
  · exact hBad.inner_left h (hsize ▸ h.1)

/-- A multiplier hands the property on to the error, and so does its right-hand side. -/
theorem error_of_dual (hz : z.dual.size = s.problem.rows)
    (h : Vec.At Bad z.dual j ∨ Vec.At Bad s.problem.rightSide j) :
    Bad (s.evaluate z move iteration passes elapsed).error := by
  have hsize : z.dual.size = s.problem.rightSide.size := hz.trans s.problem.size_rightSide.symm
  refine hBad.error_of_objective (.inr (hBad.add (.inl ?_)))
  rcases h with h | h
  · exact hBad.inner_right h (hsize ▸ h.1)
  · exact hBad.inner_left h (hsize ▸ h.1)

end Absorbing

/-! ### Binary scalars -/

/-- A lawful scalar type in which differences and negatives are those of the format, too, and a
    hypotenuse is finite only over finite legs. -/
class SignedBinary (α : Type) [Scalar α] [Binary α] : Prop extends LawfulBinary α where
  unpack_sub (x y : α) : Binary.unpack (x - y) =
    stored (Binary.format α)
      (UnpackedFloat.sub (Binary.format α) (Binary.unpack x) (Binary.unpack y))
  unpack_neg (x : α) : Binary.unpack (-x) =
    stored (Binary.format α) (UnpackedFloat.neg (Binary.unpack x))
  isFinite_hypot (x y : α) (h : Scalar.isFinite x = false ∨ Scalar.isFinite y = false) :
    Scalar.isFinite (Scalar.hypot x y) = false

namespace Rounding

variable {F : Format} {u v : UnpackedFloat}

theorem isFinite_stored (h : u.isFinite = false) : (stored F u).isFinite = false := by
  rcases u with s | _ | s | ⟨s, m, e, hm⟩
  · rw [stored_infinity]
    rfl
  · rw [stored_notANumber]
    rfl
  · exact Bool.noConfusion h
  · exact Bool.noConfusion h

/-- A sum with a summand that is not finite is infinite or no number. -/
theorem isFinite_add (h : u.isFinite = false ∨ v.isFinite = false) :
    (UnpackedFloat.add F u v).isFinite = false := by
  rcases u with s | _ | s | ⟨s, m, e, hm⟩ <;> rcases v with s' | _ | s' | ⟨s', m', e', hm'⟩
  case infinity.infinity =>
    rw [UnpackedFloat.add]
    split <;> rfl
  all_goals first
    | rfl
    | simp [UnpackedFloat.isFinite] at h

theorem isFinite_sub (h : u.isFinite = false ∨ v.isFinite = false) :
    (UnpackedFloat.sub F u v).isFinite = false := by
  rcases u with s | _ | s | ⟨s, m, e, hm⟩ <;> rcases v with s' | _ | s' | ⟨s', m', e', hm'⟩
  case infinity.infinity =>
    rw [UnpackedFloat.sub]
    split <;> rfl
  all_goals first
    | rfl
    | simp [UnpackedFloat.isFinite] at h

theorem isFinite_mul (h : u.isFinite = false ∨ v.isFinite = false) :
    (UnpackedFloat.mul F u v).isFinite = false := by
  rcases u with s | _ | s | ⟨s, m, e, hm⟩ <;> rcases v with s' | _ | s' | ⟨s', m', e', hm'⟩
  all_goals first
    | rfl
    | simp [UnpackedFloat.isFinite] at h

theorem isFinite_sqrt (h : u.isFinite = false) : (UnpackedFloat.sqrt F u).isFinite = false := by
  rcases u with (_ | _) | _ | s | ⟨s, m, e, hm⟩
  · rfl
  · rfl
  · rfl
  · exact Bool.noConfusion h
  · exact Bool.noConfusion h

theorem add_eq_notANumber (h : u = .notANumber ∨ v = .notANumber) :
    UnpackedFloat.add F u v = .notANumber := by
  rcases h with rfl | rfl
  · rcases v with s | _ | s | ⟨s, m, e, hm⟩ <;> rfl
  · rcases u with s | _ | s | ⟨s, m, e, hm⟩ <;> rfl

theorem sub_eq_notANumber (h : u = .notANumber ∨ v = .notANumber) :
    UnpackedFloat.sub F u v = .notANumber := by
  rcases h with rfl | rfl
  · rcases v with s | _ | s | ⟨s, m, e, hm⟩ <;> rfl
  · rcases u with s | _ | s | ⟨s, m, e, hm⟩ <;> rfl

theorem mul_eq_notANumber (h : u = .notANumber ∨ v = .notANumber) :
    UnpackedFloat.mul F u v = .notANumber := by
  rcases h with rfl | rfl
  · rcases v with s | _ | s | ⟨s, m, e, hm⟩ <;> rfl
  · rcases u with s | _ | s | ⟨s, m, e, hm⟩ <;> rfl

end Rounding

namespace Binary

variable [Binary α]

/-- A scalar that is no number. -/
def IsUndefined (x : α) : Prop := value x = .undefined

omit [Scalar α] in
theorem isUndefined_iff {x : α} : IsUndefined x ↔ unpack x = .notANumber := by
  rw [IsUndefined, value]
  rcases unpack x with (_ | _) | _ | s | ⟨s, m, e, hm⟩
  case notANumber => exact iff_of_true rfl rfl
  all_goals simp [ofUnpacked]

section

variable [LawfulBinary α]

theorem isFinite_eq_false_iff {x : α} :
    Scalar.isFinite x = false ↔ value x = .top ∨ value x = .bot ∨ IsUndefined x := by
  rw [← Bool.not_eq_true, isFinite_iff, IsUndefined]
  cases value x with
  | real a => simp
  | top | bot | undefined => simp

theorem IsUndefined.isFinite {x : α} (hx : IsUndefined x) : Scalar.isFinite x = false :=
  isFinite_eq_false_iff.2 (.inr (.inr hx))

/-- What is no number compares with nothing. -/
theorem IsUndefined.not_lt_left {x : α} (hx : IsUndefined x) (y : α) : ¬ x < y := fun h =>
  not_undefined_lt _ (hx ▸ Binary.lt_iff.1 h)

theorem IsUndefined.not_lt_right {x : α} (hx : IsUndefined x) (y : α) : ¬ y < x := fun h =>
  not_lt_undefined _ (hx ▸ Binary.lt_iff.1 h)

theorem IsUndefined.not_le {x : α} (hx : IsUndefined x) (y : α) : ¬ x ≤ y := fun h =>
  not_undefined_le _ (hx ▸ Binary.le_iff.1 h)

/-- Clamping leaves what is no number as it is. -/
theorem IsUndefined.clamp {x : α} (hx : IsUndefined x) (lower upper : α) :
    IsUndefined (Scalar.clamp lower upper x) := by
  rw [Scalar.clamp, if_neg (hx.not_lt_left lower), if_neg (hx.not_lt_right upper)]
  exact hx

theorem IsUndefined.positivePart {x : α} (hx : IsUndefined x) :
    IsUndefined (Scalar.positivePart x) := by
  rw [Scalar.positivePart, if_neg (hx.not_lt_left 0)]
  exact hx

theorem IsUndefined.div {x : α} (hx : IsUndefined x) (y : α) : IsUndefined (x / y) := by
  rw [isUndefined_iff] at hx ⊢
  rw [LawfulBinary.unpack_div, hx]
  exact stored_notANumber

/-- A root is zero, greater than zero, or no number. -/
theorem sqrt_cases (x : α) :
    value (Scalar.sqrt x) = .real 0 ∨ 0 < Scalar.sqrt x ∨ IsUndefined (Scalar.sqrt x) := by
  rcases hx : unpack x with (_ | _) | _ | s | ⟨_ | _, m, e, hm⟩
  case finite.positive =>
    have hpos : (0 : ℝ) < m * 2 ^ e := by positivity
    have hvalue : value x = .real (m * 2 ^ e) := by
      rw [value, hx, ofUnpacked_finite, unit, one_mul]
    have hnonneg := (rounds_sqrt hvalue hpos).ge (representable_zero _)
      (by simpa using overflow_pos _) (Real.sqrt_nonneg _)
    cases hroot : value (Scalar.sqrt x) with
    | real r =>
      rw [hroot, real_le_real] at hnonneg
      exact hnonneg.eq_or_lt.imp (fun h => by rw [h]) fun h => .inl (pos_iff.2 (.inl ⟨r, hroot, h⟩))
    | top => exact .inr (.inl (pos_iff.2 (.inr hroot)))
    | bot =>
      rw [hroot] at hnonneg
      exact absurd hnonneg (not_real_le_bot 0)
    | undefined => exact .inr (.inr hroot)
  case infinity.positive =>
    refine .inr (.inl (pos_iff.2 (.inr ?_)))
    rw [value, LawfulBinary.unpack_sqrt, hx]
    exact congrArg ofUnpacked (stored_infinity _)
  case zero =>
    rw [value, LawfulBinary.unpack_sqrt, hx]
    exact .inl (congrArg ofUnpacked (stored_zero _))
  all_goals
    refine .inr (.inr ?_)
    rw [IsUndefined, value, LawfulBinary.unpack_sqrt, hx]
    exact congrArg ofUnpacked stored_notANumber

/-- A root is never infinitely small. -/
theorem value_sqrt_ne_bot (x : α) : value (Scalar.sqrt x) ≠ .bot := by
  intro h
  rcases sqrt_cases x with h0 | hpos | hundefined
  · exact nomatch h.symm.trans h0
  · rcases pos_iff.1 hpos with ⟨r, hr, -⟩ | htop
    · exact nomatch h.symm.trans hr
    · exact nomatch h.symm.trans htop
  · exact nomatch h.symm.trans hundefined

/-- A root within a finite tolerance is finite. -/
theorem isFinite_of_sqrt_le {x tolerance : α} (htol : Scalar.isFinite tolerance = true)
    (h : Scalar.sqrt x ≤ tolerance) : Scalar.isFinite (Scalar.sqrt x) = true := by
  obtain ⟨a, ha⟩ := isFinite_iff.1 htol
  rw [Binary.le_iff, ha] at h
  by_contra hfinite
  rw [Bool.not_eq_true, isFinite_eq_false_iff] at hfinite
  rcases hfinite with htop | hbot | hundefined
  · rw [htop] at h
    exact not_top_le_real a h
  · exact value_sqrt_ne_bot x hbot
  · rw [show value _ = .undefined from hundefined] at h
    exact not_undefined_le _ h

theorem isFinite_add_eq_false {x y : α}
    (h : Scalar.isFinite x = false ∨ Scalar.isFinite y = false) :
    Scalar.isFinite (x + y) = false := by
  simp only [LawfulBinary.isFinite_eq, LawfulBinary.unpack_add] at h ⊢
  exact isFinite_stored (isFinite_add h)

theorem isFinite_abs_eq_false {x : α} (h : Scalar.isFinite x = false) :
    Scalar.isFinite (Scalar.abs x) = false := by
  rw [isFinite_eq_false_iff, IsUndefined, value_abs]
  rcases isFinite_eq_false_iff.1 h with h | h | h
  · rw [h]
    exact .inl rfl
  · rw [h]
    exact .inl rfl
  · rw [show value _ = .undefined from h]
    exact .inr (.inr rfl)

theorem one_beq_zero : ((1 : α) == 0) = false := by
  rw [← Bool.not_eq_true, beq_iff, value_one, value_zero]
  rintro ⟨h, -⟩
  exact one_ne_zero (Extended.real_injective h)

end

variable [SignedBinary α]

/-- What is no number is handed on. -/
theorem absorbing_undefined : Absorbing fun x : α => IsUndefined x where
  add h := by
    simp only [isUndefined_iff, LawfulBinary.unpack_add] at h ⊢
    rw [add_eq_notANumber h, stored_notANumber]
  sub h := by
    simp only [isUndefined_iff, SignedBinary.unpack_sub] at h ⊢
    rw [sub_eq_notANumber h, stored_notANumber]
  mul h := by
    simp only [isUndefined_iff, LawfulBinary.unpack_mul] at h ⊢
    rw [mul_eq_notANumber h, stored_notANumber]
  abs h := by
    rw [IsUndefined, value_abs, show value _ = .undefined from h]
    rfl
  sqrt h := by
    rw [isUndefined_iff] at h ⊢
    rw [LawfulBinary.unpack_sqrt, h]
    exact stored_notANumber

/-- What is not finite is handed on. -/
theorem absorbing_not_finite : Absorbing fun x : α => Scalar.isFinite x = false where
  add h := isFinite_add_eq_false h
  sub h := by
    simp only [LawfulBinary.isFinite_eq, SignedBinary.unpack_sub] at h ⊢
    exact isFinite_stored (isFinite_sub h)
  mul h := by
    simp only [LawfulBinary.isFinite_eq, LawfulBinary.unpack_mul] at h ⊢
    exact isFinite_stored (isFinite_mul h)
  abs h := isFinite_abs_eq_false h
  sqrt h := by
    simp only [LawfulBinary.isFinite_eq, LawfulBinary.unpack_sqrt] at h ⊢
    exact isFinite_stored (isFinite_sqrt h)

/-! ### The two instances -/

omit [Scalar α] [SignedBinary α] in
theorem isInf_or_isNaN {x : α} (h : (unpack x).isFinite = false) :
    (unpack x).isInf = true ∨ (unpack x).isNaN = true := by
  rcases hx : unpack x with s | _ | s | ⟨s, m, e, hm⟩
  · exact .inl rfl
  · exact .inr rfl
  · exact nomatch hx ▸ h
  · exact nomatch hx ▸ h

omit [Scalar α] [SignedBinary α] in
theorem isUndefined_iff_isNaN {x : α} : IsUndefined x ↔ (unpack x).isNaN = true := by
  rw [isUndefined_iff]
  rcases unpack x with s | _ | s | ⟨s, m, e, hm⟩
  case notANumber => exact iff_of_true rfl rfl
  all_goals exact iff_of_false nofun nofun

end Binary

open Binary

instance : SignedBinary Float where
  unpack_sub _ _ := rfl
  unpack_neg _ := rfl
  isFinite_hypot x y h := by
    -- The two tests at the beginning find whatever is not finite.
    have habs := h.imp isFinite_abs_eq_false isFinite_abs_eq_false
    change (Hypot.binary64 x y).isFinite = false
    rw [Hypot.binary64]
    dsimp only
    split
    · exact isFinite_eq_false_iff.2 (.inl (value_infinity (α := Float)))
    · rename_i hinf
      rw [if_pos]
      · exact isFinite_add_eq_false habs
      · rw [Bool.or_eq_true] at hinf ⊢
        exact habs.imp
          (fun hx => (isInf_or_isNaN (x := x.abs) hx).resolve_left fun h => hinf (.inl h))
          (fun hy => (isInf_or_isNaN (x := y.abs) hy).resolve_left fun h => hinf (.inr h))

theorem isUndefined_widen {x : Float32} (hx : IsUndefined x) : IsUndefined (widen x) := by
  rw [isUndefined_iff] at hx ⊢
  change stored .binary64 (recast .binary64 (unpack x)) = _
  rw [hx]
  exact stored_notANumber

theorem isUndefined_narrow {x : Float} (hx : IsUndefined x) : IsUndefined (narrow x) := by
  rw [isUndefined_iff] at hx ⊢
  change stored .binary32 (recast .binary32 (unpack x)) = _
  rw [hx]
  exact stored_notANumber

instance : SignedBinary Float32 where
  unpack_sub _ _ := rfl
  unpack_neg _ := rfl
  isFinite_hypot x y h := by
    have hbad := absorbing_undefined (α := Float)
    change (Hypot.binary32 x y).isFinite = false
    rw [Hypot.binary32]
    split
    · exact isFinite_eq_false_iff.2 (.inl (value_infinity (α := Float32)))
    · rename_i hinf
      rw [Bool.or_eq_true] at hinf
      have hundefined : IsUndefined x ∨ IsUndefined y := by
        rw [isUndefined_iff_isNaN, isUndefined_iff_isNaN]
        exact h.imp (fun hx => (isInf_or_isNaN hx).resolve_left fun h => hinf (.inl h))
          (fun hy => (isInf_or_isNaN hy).resolve_left fun h => hinf (.inr h))
      refine (isUndefined_narrow (hbad.sqrt (hbad.add ?_))).isFinite
      exact hundefined.imp (fun hx => hbad.mul (.inl (isUndefined_widen hx)))
        (fun hy => hbad.mul (.inl (isUndefined_widen hy)))

end HybridGradient

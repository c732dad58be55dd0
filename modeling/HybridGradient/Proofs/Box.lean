import HybridGradient.Proofs.Confinement

/-!
# The box of a problem

The bounds of the variables span a box. A problem is accepted if each lower bound is no greater
than the upper one. This is almost the same as to say that there is a number between them, but not
where both are one and the same infinity, since an infinity is no greater than itself. The box then
holds no number, and clamping leads to the infinity.

* `Scalar.SameInfinity`: two bounds that are the same infinity;
* `Binary.le_iff_between`: what it says of two bounds that they are in order;
* `Binary.between_clamp`: where clamping takes a number;
* `Problem.ofData?_box`: the data that are accepted, and the projection onto the box;
* `Problem.exists_accepted_empty`: accepted problems with a box that holds no number.
-/

namespace HybridGradient

open Extended Binary

/-- Two bounds are one and the same infinity. -/
def Scalar.SameInfinity {α : Type} [Scalar α] (l u : α) : Prop :=
  (l == u) = true ∧ Scalar.isFinite l = false

namespace Extended

theorem eq_top_of_le {a : Extended} (h : top ≤ a) : a = top := by
  rcases h with h | h
  · cases a <;> exact absurd h id
  · exact h.1.symm

theorem eq_bot_of_le {a : Extended} (h : a ≤ bot) : a = bot := by
  rcases h with h | h
  · cases a <;> exact absurd h id
  · exact h.1

end Extended

namespace Binary

variable {α : Type} [Scalar α] [Binary α] [LawfulBinary α] {l u x : α}

/-! ### Two bounds -/

theorem sameInfinity_iff :
    Scalar.SameInfinity l u ↔ value l = value u ∧ (value l = .top ∨ value l = .bot) := by
  rw [Scalar.SameInfinity, beq_iff, isFinite_eq_false_iff, IsUndefined, and_assoc]
  refine and_congr_right fun _ => ⟨fun h => ?_, fun h => ⟨?_, ?_⟩⟩
  · have hinfinite := h.2
    rwa [or_iff_left h.1] at hinfinite
  · rcases h with h | h <;> simp [h]
  · exact or_assoc.1 (.inl h)

theorem sameInfinity_of_top (hl : value l = .top) (h : l ≤ u) : Scalar.SameInfinity l u := by
  rw [le_iff, hl] at h
  exact sameInfinity_iff.2 ⟨hl.trans (eq_top_of_le h).symm, .inl hl⟩

theorem sameInfinity_of_bot (hu : value u = .bot) (h : l ≤ u) : Scalar.SameInfinity l u := by
  rw [le_iff, hu] at h
  have hl := eq_bot_of_le h
  exact sameInfinity_iff.2 ⟨hl.trans hu.symm, .inr hl⟩

/-- Bounds that are in order have a number between them, or are the same infinity. -/
theorem between_or_sameInfinity (h : l ≤ u) :
    (∃ v, Scalar.isFinite v = true ∧ l ≤ v ∧ v ≤ u) ∨ Scalar.SameInfinity l u := by
  have hl : ¬ IsUndefined l := fun hl => hl.not_le u h
  have hu : ¬ IsUndefined u := fun hu => hu.not_le_right l h
  cases hvl : value l with
  | real a => exact .inl ⟨l, isFinite_iff.2 ⟨a, hvl⟩, le_self hl, h⟩
  | top => exact .inr (sameInfinity_of_top hvl h)
  | undefined => exact absurd hvl hl
  | bot =>
    cases hvu : value u with
    | real b => exact .inl ⟨u, isFinite_iff.2 ⟨b, hvu⟩, h, le_self hu⟩
    | bot => exact .inr (sameInfinity_of_bot hvu h)
    | undefined => exact absurd hvu hu
    | top =>
      refine .inl ⟨0, isFinite_iff.2 ⟨0, value_zero⟩, ?_, ?_⟩
      · rw [le_iff, hvl, value_zero]
        exact bot_le_real 0
      · rw [le_iff, hvu, value_zero]
        exact real_le_top 0

theorem le_iff_between :
    l ≤ u ↔ (∃ v, Scalar.isFinite v = true ∧ l ≤ v ∧ v ≤ u) ∨ Scalar.SameInfinity l u := by
  refine ⟨between_or_sameInfinity, ?_⟩
  rintro (⟨v, hv, hlv, hvu⟩ | hsame)
  · obtain ⟨t, ht⟩ := isFinite_iff.1 hv
    rw [le_iff, ht] at hlv hvu
    exact le_iff.2 (le_trans_real hlv hvu)
  · exact le_iff.2 (.inr (beq_iff.1 hsame.1))

/-- There is no number between bounds that are the same infinity. -/
theorem isFinite_eq_false_of_sameInfinity (h : Scalar.SameInfinity l u) (hl : l ≤ x) (hu : x ≤ u) :
    Scalar.isFinite x = false := by
  obtain ⟨heq, hinf⟩ := sameInfinity_iff.1 h
  refine Bool.eq_false_iff.2 fun hx => ?_
  obtain ⟨t, ht⟩ := isFinite_iff.1 hx
  rw [le_iff, ht] at hl hu
  rcases hinf with htop | hbot
  · exact not_top_le_real t (htop ▸ hl)
  · exact not_real_le_bot t (hbot ▸ heq ▸ hu)

/-! ### Clamping -/

theorem not_isUndefined_clamp (h : l ≤ u) (hx : Scalar.isFinite x = true) :
    ¬ IsUndefined (Scalar.clamp l u x) := by
  rw [Scalar.clamp]
  split
  · exact fun hl => hl.not_le u h
  · split
    · exact fun hu => hu.not_le_right l h
    · exact fun hundefined => Bool.false_ne_true (hundefined.isFinite.symm.trans hx)

/-- A number is clamped to a bound that is a number, unless the bounds are the same infinity. -/
theorem isFinite_clamp (h : l ≤ u) (hx : Scalar.isFinite x = true)
    (hsame : ¬ Scalar.SameInfinity l u) : Scalar.isFinite (Scalar.clamp l u x) = true := by
  obtain ⟨t, ht⟩ := isFinite_iff.1 hx
  rw [Scalar.clamp]
  split
  · rename_i hlt
    rw [lt_iff, ht] at hlt
    cases hvl : value l with
    | real a => exact isFinite_iff.2 ⟨a, hvl⟩
    | top => exact absurd (sameInfinity_of_top hvl h) hsame
    | bot =>
      rw [hvl] at hlt
      exact absurd hlt id
    | undefined =>
      rw [hvl] at hlt
      exact absurd hlt id
  · split
    · rename_i hgt
      rw [lt_iff, ht] at hgt
      cases hvu : value u with
      | real b => exact isFinite_iff.2 ⟨b, hvu⟩
      | bot => exact absurd (sameInfinity_of_bot hvu h) hsame
      | top =>
        rw [hvu] at hgt
        exact absurd hgt id
      | undefined =>
        rw [hvu] at hgt
        exact absurd hgt id
    · exact hx

/-- A number is clamped to what lies between the bounds, and is a number unless the bounds are
    the same infinity. -/
theorem between_clamp (h : l ≤ u) (hx : Scalar.isFinite x = true) :
    (l ≤ Scalar.clamp l u x ∧ Scalar.clamp l u x ≤ u) ∧
      (Scalar.isFinite (Scalar.clamp l u x) = true ↔ ¬ Scalar.SameInfinity l u) := by
  have hbetween : l ≤ Scalar.clamp l u x ∧ Scalar.clamp l u x ≤ u :=
    (confined_clamp h x).resolve_left (not_isUndefined_clamp h hx)
  refine ⟨hbetween, fun hfinite hsame => ?_, isFinite_clamp h hx⟩
  rw [isFinite_eq_false_of_sameInfinity hsame hbetween.1 hbetween.2] at hfinite
  exact Bool.false_ne_true hfinite

end Binary

namespace Problem

variable {α : Type} [Scalar α] {objective rightSide lower upper : Vec α} {A : SparseMatrix α}
  {equalities : ℕ}

/-! ### Accepted data -/

/-- Between the bounds of some variable there is no number. -/
def EmptyBox (p : Problem α) : Prop :=
  ∃ (j : ℕ) (l u : α), p.lower[j]? = some l ∧ p.upper[j]? = some u ∧
    ¬ ∃ v, Scalar.isFinite v = true ∧ l ≤ v ∧ v ≤ u

/-- Data are accepted if their sizes fit and all bounds are in order. -/
theorem exists_ofData?_iff :
    (∃ p, ofData? objective A rightSide equalities lower upper = .ok p) ↔
      objective.size = A.cols ∧ rightSide.size = A.rows ∧ lower.size = A.cols ∧
        upper.size = A.cols ∧ equalities ≤ A.rows ∧
        ∀ (j : ℕ) (l u : α), lower[j]? = some l → upper[j]? = some u → l ≤ u := by
  have hbounds : emptyBounds? lower upper = none ↔
      ∀ (j : ℕ) (l u : α), lower[j]? = some l → upper[j]? = some u → l ≤ u := by
    rw [emptyBounds?_eq_none_iff]
    constructor
    · intro h j l u hl hu
      exact h (l, u) (Array.mem_of_getElem? (Array.getElem?_zip_eq_some.2 ⟨hl, hu⟩))
    · intro h b hb
      obtain ⟨j, hj⟩ := Array.mem_iff_getElem?.1 hb
      obtain ⟨l, u⟩ := b
      obtain ⟨hl, hu⟩ := Array.getElem?_zip_eq_some.1 hj
      exact h j l u hl hu
  rw [← hbounds, ofData?]
  split
  · rename_i hsizes
    split
    · rename_i hcount
      cases h : emptyBounds? lower upper with
      | none =>
        exact iff_of_true ⟨_, rfl⟩
          ⟨hsizes.1, hsizes.2.1, hsizes.2.2.1, hsizes.2.2.2, hcount, rfl⟩
      | some j => simp
    · rename_i hcount
      simp [hcount]
  · rename_i hsizes
    refine iff_of_false (by simp) fun h => ?_
    exact hsizes ⟨h.1, h.2.1, h.2.2.1, h.2.2.2.1⟩

variable [Binary α] [LawfulBinary α]

/-- The projection of a point of numbers onto the box. -/
theorem between_projectPrimal {p : Problem α} (hp : p.Accepted) {x : Vec α}
    (hx : ∀ v ∈ x, Scalar.isFinite v = true) {j : ℕ} {v l u : α}
    (hv : (p.projectPrimal x)[j]? = some v) (hl : p.lower[j]? = some l)
    (hu : p.upper[j]? = some u) :
    (l ≤ v ∧ v ≤ u) ∧ (Scalar.isFinite v = true ↔ ¬ Scalar.SameInfinity l u) := by
  have hbounds : (Array.zip p.lower p.upper)[j]? = some (l, u) :=
    Array.getElem?_zip_eq_some.2 ⟨hl, hu⟩
  have hle : l ≤ u := by
    rw [accepted_iff_emptyBounds?, emptyBounds?_eq_none_iff] at hp
    exact hp _ (Array.mem_of_getElem? hbounds)
  simp only [projectPrimal, Array.getElem?_zipWith_eq_some, hbounds] at hv
  obtain ⟨a, b, ha, hb, rfl⟩ := hv
  obtain rfl := Option.some.inj hb
  exact between_clamp hle (hx a (Array.mem_of_getElem? ha))

/-- Data make a problem exactly if their sizes fit, there are no more equalities than rows, and
    between the bounds of each variable there is a number, unless both are the same infinity.

    The problem is made of the data as they are. The projection of a point of numbers keeps to the
    bounds, and each of its components is a number, unless both bounds of the variable are the same
    infinity. -/
theorem ofData?_box (objective rightSide lower upper : Vec α) (A : SparseMatrix α)
    (equalities : ℕ) :
    ((∃ p, ofData? objective A rightSide equalities lower upper = .ok p) ↔
      objective.size = A.cols ∧ rightSide.size = A.rows ∧ lower.size = A.cols ∧
        upper.size = A.cols ∧ equalities ≤ A.rows ∧
        ∀ (j : ℕ) (l u : α), lower[j]? = some l → upper[j]? = some u →
          (∃ v, Scalar.isFinite v = true ∧ l ≤ v ∧ v ≤ u) ∨ Scalar.SameInfinity l u) ∧
    ∀ p, ofData? objective A rightSide equalities lower upper = .ok p →
      (p.objective = objective ∧ p.matrix = A ∧ p.rightSide = rightSide ∧
        p.equalities = equalities ∧ p.lower = lower ∧ p.upper = upper) ∧
      ∀ x : Vec α, x.size = A.cols → (∀ v ∈ x, Scalar.isFinite v = true) →
        ∃ y, p.projectPrimal? x = .ok y ∧ y.size = A.cols ∧
          ∀ (j : ℕ) (v l u : α), y[j]? = some v → lower[j]? = some l → upper[j]? = some u →
            (l ≤ v ∧ v ≤ u) ∧ (Scalar.isFinite v = true ↔ ¬ Scalar.SameInfinity l u) := by
  constructor
  · rw [exists_ofData?_iff]
    have hbounds : (∀ (j : ℕ) (l u : α), lower[j]? = some l → upper[j]? = some u → l ≤ u) ↔ _ :=
      forall₃_congr fun j l u => forall₂_congr fun _ _ => le_iff_between
    rw [hbounds]
  · intro p hp
    have haccepted := accepted_of_ofData? hp
    obtain ⟨rfl, rfl, rfl, rfl, rfl, rfl⟩ := data_of_ofData? hp
    refine ⟨⟨rfl, rfl, rfl, rfl, rfl, rfl⟩, fun x hsize hx => ⟨p.projectPrimal x, ?_, ?_, ?_⟩⟩
    · rw [projectPrimal?, p.size_lower, hsize, Fault.checkLength_self]
      rfl
    · exact p.size_projectPrimal hsize
    · exact fun j v l u hv hl hu => between_projectPrimal haccepted hx hv hl hu

/-! ### Small problems -/

/-- The small problem with other bounds. -/
def bounded {α : Type} [Scalar α] (l u : α) : Problem α :=
  { single α with lower := #[l], upper := #[u], size_lower := rfl, size_upper := rfl }

/-- The projection onto the box of the small problem, in either format. -/
theorem ofData?_box_single :
    (∃ p, ofData? #[1] (single Float).matrix #[1] 1 #[0] #[1 + 1] = .ok p ∧
      ∃ y, p.projectPrimal? #[1 + 1 + 1] = .ok y ∧
        ∀ v, y[0]? = some v → (0 ≤ v ∧ v ≤ 1 + 1) ∧ Scalar.isFinite v = true) ∧
    ∃ p, ofData? #[1] (single Float32).matrix #[1] 1 #[0] #[1 + 1] = .ok p ∧
      ∃ y, p.projectPrimal? #[1 + 1 + 1] = .ok y ∧
        ∀ v, y[0]? = some v → (0 ≤ v ∧ v ≤ 1 + 1) ∧ Scalar.isFinite v = true := by
  constructor
  · have haccepted : (single Float).Accepted := accepted_iff_emptyBounds?.2 (by decide +kernel)
    obtain ⟨y, hy, -, hbox⟩ := ((ofData?_box #[1] #[1] #[0] #[1 + 1] (single Float).matrix 1).2 _
      haccepted).2 #[1 + 1 + 1] rfl (by decide +kernel)
    refine ⟨_, haccepted, y, hy, fun v hv => ?_⟩
    obtain ⟨hbetween, hfinite⟩ := hbox 0 v 0 (1 + 1) hv rfl rfl
    exact ⟨hbetween, hfinite.2 fun hsame => absurd hsame.2 (by decide +kernel)⟩
  · have haccepted : (single Float32).Accepted := accepted_iff_emptyBounds?.2 (by decide +kernel)
    obtain ⟨y, hy, -, hbox⟩ := ((ofData?_box #[1] #[1] #[0] #[1 + 1] (single Float32).matrix 1).2 _
      haccepted).2 #[1 + 1 + 1] rfl (by decide +kernel)
    refine ⟨_, haccepted, y, hy, fun v hv => ?_⟩
    obtain ⟨hbetween, hfinite⟩ := hbox 0 v 0 (1 + 1) hv rfl rfl
    exact ⟨hbetween, hfinite.2 fun hsame => absurd hsame.2 (by decide +kernel)⟩

/-- Two infinite bounds are accepted, although the box is empty and a point of numbers is taken
    to infinity. -/
theorem accepted_bounded_infinity (α : Type) [Scalar α] [Binary α] [LawfulBinary α] :
    (bounded (Scalar.infinity : α) Scalar.infinity).Accepted ∧
      (bounded (Scalar.infinity : α) Scalar.infinity).EmptyBox ∧
      ∃ v ∈ (bounded (Scalar.infinity : α) Scalar.infinity).projectPrimal #[0],
        Scalar.isFinite v = false := by
  have hsame : Scalar.SameInfinity (Scalar.infinity : α) Scalar.infinity :=
    sameInfinity_iff.2 ⟨rfl, .inl value_infinity⟩
  have hle : (Scalar.infinity : α) ≤ Scalar.infinity := le_iff_between.2 (.inr hsame)
  have haccepted : (bounded (Scalar.infinity : α) Scalar.infinity).Accepted := by
    rw [accepted_iff]
    rintro ⟨j, hj⟩
    obtain rfl := Nat.lt_one_iff.1 hj
    exact hle
  refine ⟨haccepted, ⟨0, _, _, rfl, rfl, ?_⟩, ?_⟩
  · rintro ⟨v, hv, hlv, hvu⟩
    exact Bool.false_ne_true ((isFinite_eq_false_of_sameInfinity hsame hlv hvu).symm.trans hv)
  · have hmem : Scalar.clamp Scalar.infinity Scalar.infinity 0 ∈
        (bounded (Scalar.infinity : α) Scalar.infinity).projectPrimal #[0] := by
      simp [projectPrimal, bounded]
    refine ⟨_, hmem, ?_⟩
    obtain ⟨⟨hl, hu⟩, -⟩ := between_clamp hle (isFinite_iff.2 ⟨0, value_zero⟩)
    exact isFinite_eq_false_of_sameInfinity hsame hl hu

/-- In either format, a problem is accepted whose box is empty, and whose projection takes a point
    of numbers to infinity. -/
theorem exists_accepted_empty :
    (∃ p : Problem Float, p.Accepted ∧ p.EmptyBox ∧
      ∃ v ∈ p.projectPrimal #[0], Scalar.isFinite v = false) ∧
    ∃ p : Problem Float32, p.Accepted ∧ p.EmptyBox ∧
      ∃ v ∈ p.projectPrimal #[0], Scalar.isFinite v = false :=
  ⟨⟨_, accepted_bounded_infinity Float⟩, _, accepted_bounded_infinity Float32⟩

end Problem

end HybridGradient

import Undertone.Decoder.MultiTone

/-!
# The exchange sort of the tones

`AnalyzeStartTokens` ranks the tones by sorting a copy of their energy ratios in place, `AnalyzeToken` by searching
twice for the largest one. A pass of the sort moves the smallest value left of the sorted part to its end
(`Sorted.pass`), and equal values never pass each other (`Stable.exchange`), so the two rankings are one
(`rankings_agree`). Where the comparison is not that of an order the sort still moves indices and values together
(`Indexed`), and a first value that none exceeds stays in front (`sortTones_stays`).
-/

namespace Undertone

open CountedLoop Globals

/-! ## The indices and the values -/

/-- Two states of the sort that have moved the same indices. -/
def Alike {α β : Type} (size : ℕ) (a : ℕ → α) (b : ℕ → β) (st : (ℕ → α) × (ℕ → ℕ)) (st' : (ℕ → β) × (ℕ → ℕ)) : Prop :=
  st.2 = st'.2 ∧ ∀ i < size, st.2 i < size ∧ st.1 i = a (st.2 i) ∧ st'.1 i = b (st.2 i)

theorem Alike.swap {α β : Type} {size : ℕ} {a : ℕ → α} {b : ℕ → β} {s : ℕ → α} {s' : ℕ → β} {idx idx' : ℕ → ℕ}
    (h : Alike size a b (s, idx) (s', idx')) {d : ℕ} (hd : d + 1 < size) :
    Alike size a b
      (Function.update (Function.update s d (s (d + 1))) (d + 1) (s d),
        Function.update (Function.update idx d (idx (d + 1))) (d + 1) (idx d))
      (Function.update (Function.update s' d (s' (d + 1))) (d + 1) (s' d),
        Function.update (Function.update idx' d (idx' (d + 1))) (d + 1) (idx' d)) := by
  obtain ⟨hidx, hall⟩ := h
  obtain rfl : idx = idx' := hidx
  refine ⟨rfl, fun i hi => ?_⟩
  by_cases hi1 : i = d + 1
  · subst hi1
    simp only [Function.update_self]
    exact hall d (by omega)
  · by_cases hi0 : i = d
    · subst hi0
      simp only [Function.update_of_ne hi1, Function.update_self]
      exact hall (i + 1) hd
    · simp only [Function.update_of_ne hi1, Function.update_of_ne hi0]
      exact hall i hi

/-- The sort depends on the values only through their comparisons. -/
theorem sortTones_rank {α β : Type} {lt : α → α → Bool} {lt' : β → β → Bool} {a : ℕ → α} {b : ℕ → β} {size : ℕ}
    (h : ∀ i < size, ∀ j < size, lt (a i) (a j) = lt' (b i) (b j)) :
    (Analysis.sortTones lt size a).2 = (Analysis.sortTones lt' size b).2 := by
  have hR : Alike size a b (Analysis.sortTones lt size a) (Analysis.sortTones lt' size b) := by
    refine forUp_rel (Alike size a b) ⟨rfl, fun i hi => ⟨hi, rfl, rfl⟩⟩ fun c st st' _ hc hst => ?_
    refine forUp_rel (Alike size a b) hst ?_
    rintro d ⟨s, idx⟩ ⟨s', idx'⟩ - hd halike
    obtain ⟨h1, h2, h3⟩ := halike.2 d (by omega)
    obtain ⟨k1, k2, k3⟩ := halike.2 (d + 1) (by omega)
    simp only at h1 h2 h3 k1 k2 k3 ⊢
    have hlt : lt (s d) (s (d + 1)) = lt' (s' d) (s' (d + 1)) := by
      rw [h2, k2, h3, k3]
      exact h _ h1 _ k1
    rw [hlt]
    split
    · exact halike.swap (by omega)
    · exact halike
  exact hR.1

section Exchange

variable {α : Type} {lt : α → α → Bool} {a : ℕ → α} {size : ℕ}

/-- One comparison of the sort. -/
def exchange (lt : α → α → Bool) (d : ℕ) (st : (ℕ → α) × (ℕ → ℕ)) : (ℕ → α) × (ℕ → ℕ) :=
  if lt (st.1 d) (st.1 (d + 1)) then
    (Function.update (Function.update st.1 d (st.1 (d + 1))) (d + 1) (st.1 d),
      Function.update (Function.update st.2 d (st.2 (d + 1))) (d + 1) (st.2 d))
  else st

theorem sortTones_exchange : Analysis.sortTones lt size a =
    forUp 0 (size - 1) (fun c => forUp 0 (size - c - 1) (exchange lt)) (a, id) := rfl

/-- The values are those of the indices. -/
def Indexed (size : ℕ) (a : ℕ → α) (st : (ℕ → α) × (ℕ → ℕ)) : Prop := Alike size a a st st

theorem indexed_id : Indexed size a (a, id) := ⟨rfl, fun _ hi => ⟨hi, rfl, rfl⟩⟩

theorem Indexed.value {st : (ℕ → α) × (ℕ → ℕ)} (h : Indexed size a st) {i : ℕ} (hi : i < size) :
    st.2 i < size ∧ st.1 i = a (st.2 i) := by
  obtain ⟨hidx, hval, -⟩ := h.2 i hi
  exact ⟨hidx, hval⟩

theorem Indexed.exchange {st : (ℕ → α) × (ℕ → ℕ)} (h : Indexed size a st) {d : ℕ} (hd : d + 1 < size) :
    Indexed size a (exchange lt d st) := by
  unfold Undertone.exchange
  split
  · exact Alike.swap h hd
  · exact h

theorem sortTones_indexed (lt : α → α → Bool) (a : ℕ → α) (size : ℕ) :
    Indexed size a (Analysis.sortTones lt size a) := by
  rw [sortTones_exchange]
  refine forUp_rule (P := fun _ st => Indexed size a st) (Nat.zero_le _) indexed_id fun c st _ hc h => ?_
  exact forUp_rule (P := fun _ st => Indexed size a st) (Nat.zero_le _) h fun d st _ hd h => h.exchange (by omega)

/-- A value that no other exceeds stays in front, however the others compare. -/
theorem sortTones_stays (h : ∀ j < size, lt (a 0) (a j) = false) : (Analysis.sortTones lt size a).2 0 = 0 := by
  have hloop : Indexed size a (Analysis.sortTones lt size a) ∧ (Analysis.sortTones lt size a).2 0 = 0 := by
    rw [sortTones_exchange]
    refine forUp_rule (P := fun _ st => Indexed size a st ∧ st.2 0 = 0) (Nat.zero_le _) ⟨indexed_id, rfl⟩
      fun c st _ hc hst => ?_
    refine forUp_rule (P := fun _ st => Indexed size a st ∧ st.2 0 = 0) (Nat.zero_le _) hst ?_
    rintro d st - hd ⟨hindexed, hfirst⟩
    refine ⟨hindexed.exchange (by omega), ?_⟩
    obtain ⟨-, h0⟩ := hindexed.value (show 0 < size by omega)
    obtain ⟨hidx, h1⟩ := hindexed.value (show d + 1 < size by omega)
    unfold exchange
    by_cases hd0 : d = 0
    · subst hd0
      rw [h0, h1, hfirst, h _ hidx, if_neg (by simp)]
      exact hfirst
    · split
      · simp only
        rw [Function.update_of_ne (by omega), Function.update_of_ne (by omega), hfirst]
      · exact hfirst
  exact hloop.2

section Order

variable [LinearOrder α]

/-! ## A pass -/

/-- The comparison swaps the two places when the second value is the larger one. -/
theorem exchange_swap (hlt : ∀ x y, lt x y = true ↔ x < y) (d : ℕ) (st : (ℕ → α) × (ℕ → ℕ)) :
    exchange lt d st = st ∧ st.1 (d + 1) ≤ st.1 d ∨
      exchange lt d st = (st.1 ∘ Equiv.swap d (d + 1), st.2 ∘ Equiv.swap d (d + 1)) ∧ st.1 d < st.1 (d + 1) := by
  unfold exchange
  by_cases hswap : lt (st.1 d) (st.1 (d + 1)) = true
  · rw [if_pos hswap]
    refine Or.inr ⟨?_, (hlt _ _).1 hswap⟩
    have hupdate : ∀ {β : Type} (f : ℕ → β),
        Function.update (Function.update f d (f (d + 1))) (d + 1) (f d) = f ∘ Equiv.swap d (d + 1) := by
      intro β f
      funext p
      rw [Function.comp_apply, Equiv.swap_apply_def]
      by_cases h1 : p = d + 1
      · subst h1
        rw [Function.update_self, if_neg (by omega), if_pos rfl]
      · rw [Function.update_of_ne h1, if_neg h1]
        by_cases h0 : p = d
        · subst h0
          rw [Function.update_self, if_pos rfl]
        · rw [Function.update_of_ne h0, if_neg h0]
    rw [hupdate, hupdate]
  · rw [if_neg hswap]
    exact Or.inl ⟨rfl, not_lt.1 fun h => hswap ((hlt _ _).2 h)⟩

theorem swap_lt {d p q : ℕ} (hpq : p < q) (hne : ¬ (p = d ∧ q = d + 1)) :
    Equiv.swap d (d + 1) p < Equiv.swap d (d + 1) q := by
  rw [Equiv.swap_apply_def, Equiv.swap_apply_def]
  split_ifs <;> omega

theorem swap_lt_size {d p : ℕ} (hd : d + 1 < size) (hp : p < size) : Equiv.swap d (d + 1) p < size := by
  rw [Equiv.swap_apply_def]
  split_ifs <;> omega

/-- No index occurs twice, and equal values are in the order of their indices. -/
structure Stable (size : ℕ) (st : (ℕ → α) × (ℕ → ℕ)) : Prop where
  injective : ∀ p < size, ∀ q < size, st.2 p = st.2 q → p = q
  stable : ∀ p q, p < q → q < size → st.1 p = st.1 q → st.2 p < st.2 q

theorem Stable.exchange (hlt : ∀ x y, lt x y = true ↔ x < y) {st : (ℕ → α) × (ℕ → ℕ)} (h : Stable size st) {d : ℕ}
    (hd : d + 1 < size) : Stable size (exchange lt d st) := by
  rcases exchange_swap hlt d st with ⟨hst, -⟩ | ⟨hst, hless⟩
  · rw [hst]
    exact h
  · rw [hst]
    constructor
    · intro p hp q hq heq
      exact (Equiv.swap d (d + 1)).injective (h.injective _ (swap_lt_size hd hp) _ (swap_lt_size hd hq) heq)
    · intro p q hpq hq heq
      by_cases hne : p = d ∧ q = d + 1
      · obtain ⟨rfl, rfl⟩ := hne
        -- the two places that change their order hold different values
        simp only [Function.comp_apply, Equiv.swap_apply_left, Equiv.swap_apply_right] at heq
        exact absurd heq hless.ne'
      · exact h.stable _ _ (swap_lt hpq hne) (swap_lt_size hd hq) heq

/-- The last `c` values are in their places. -/
def Sorted (size c : ℕ) (s : ℕ → α) : Prop := ∀ p q, p < q → q < size → size ≤ q + c → s q ≤ s p

/-- One more value is in its place after a pass. -/
theorem Sorted.pass (hlt : ∀ x y, lt x y = true ↔ x < y) {c : ℕ} {st : (ℕ → α) × (ℕ → ℕ)}
    (h : Sorted size c st.1) : Sorted size (c + 1) (forUp 0 (size - c - 1) (exchange lt) st).1 := by
  -- the place that the pass has reached holds the smallest value so far
  have hpass := forUp_rule (a := 0) (b := size - c - 1) (s := st) (f := exchange lt)
    (P := fun d st => Sorted size c st.1 ∧ ∀ p ≤ d, st.1 d ≤ st.1 p) (Nat.zero_le _) ⟨h, ?_⟩ ?_
  · obtain ⟨hsorted, hmin⟩ := hpass
    intro p q hpq hq htail
    by_cases hold : size ≤ q + c
    · exact hsorted p q hpq hq hold
    · obtain rfl : q = size - c - 1 := by omega
      exact hmin p hpq.le
  · intro p hp
    obtain rfl : p = 0 := by omega
    exact le_rfl
  · rintro d st - hd ⟨hsorted, hmin⟩
    rcases exchange_swap hlt d st with ⟨hst, hge⟩ | ⟨hst, hless⟩
    · rw [hst]
      refine ⟨hsorted, fun p hp => ?_⟩
      rcases hp.lt_or_eq with hp | rfl
      · exact hge.trans (hmin p (by omega))
      · exact le_rfl
    · rw [hst]
      constructor
      · intro p q hpq hq htail
        have hfix : Equiv.swap d (d + 1) q = q := Equiv.swap_apply_of_ne_of_ne (by omega) (by omega)
        have hp := swap_lt (d := d) hpq (by omega)
        rw [hfix] at hp
        simp only [Function.comp_apply, hfix]
        exact hsorted _ q hp hq htail
      · intro p hp
        simp only [Function.comp_apply, Equiv.swap_apply_right]
        rcases Nat.lt_trichotomy p d with hpd | rfl | hpd
        · rw [Equiv.swap_apply_of_ne_of_ne (by omega) (by omega)]
          exact hmin p hpd.le
        · rw [Equiv.swap_apply_left]
          exact hless.le
        · obtain rfl : p = d + 1 := by omega
          rw [Equiv.swap_apply_right]

/-! ## The whole sort -/

/-- No index is lost, equal values keep their order, and the values do not increase. -/
theorem sortTones_spec (hlt : ∀ x y, lt x y = true ↔ x < y) (a : ℕ → α) (size : ℕ) :
    Stable size (Analysis.sortTones lt size a) ∧ Sorted size (size - 1) (Analysis.sortTones lt size a).1 := by
  rw [sortTones_exchange]
  refine forUp_rule (P := fun c st => Stable size st ∧ Sorted size c st.1) (Nat.zero_le _)
    ⟨⟨fun _ _ _ _ => id, fun _ _ hpq _ _ => hpq⟩, fun p q _ hq htail => by omega⟩ ?_
  rintro c st - hc ⟨hstable, hsorted⟩
  refine ⟨?_, hsorted.pass hlt⟩
  exact forUp_rule (P := fun _ st => Stable size st) (Nat.zero_le _) hstable
    fun d st _ hd h => h.exchange hlt (by omega)

/-- An earlier place of the sorted array holds a position that comes before that of a later place. -/
theorem sortTones_leads (hlt : ∀ x y, lt x y = true ↔ x < y) (a : ℕ → α) {p q : ℕ} (hpq : p < q) (hq : q < size) :
    Leads a ((Analysis.sortTones lt size a).2 p) ((Analysis.sortTones lt size a).2 q) := by
  obtain ⟨hstable, hsorted⟩ := sortTones_spec hlt a size
  have hp := ((sortTones_indexed lt a size).value (hpq.trans hq)).2
  have hq' := ((sortTones_indexed lt a size).value hq).2
  have hle := hsorted p q hpq hq (by omega)
  rcases hle.lt_or_eq with hless | heq
  · rw [hp, hq'] at hless
    exact Or.inl hless
  · have hidx := hstable.stable p q hpq hq heq.symm
    rw [hp, hq'] at heq
    exact Or.inr ⟨heq.symm, hidx⟩

theorem sortTones_perm (hlt : ∀ x y, lt x y = true ↔ x < y) (a : ℕ → α) (size : ℕ) :
    ((List.range size).map (Analysis.sortTones lt size a).2).Perm (List.range size) := by
  have hstable := (sortTones_spec hlt a size).1
  have hnodup : ((List.range size).map (Analysis.sortTones lt size a).2).Nodup := by
    refine List.nodup_range.map_on ?_
    intro p hp q hq heq
    exact hstable.injective p (List.mem_range.1 hp) q (List.mem_range.1 hq) heq
  have hsubset : (List.range size).map (Analysis.sortTones lt size a).2 ⊆ List.range size := by
    intro i hi
    obtain ⟨p, hp, rfl⟩ := List.mem_map.1 hi
    exact List.mem_range.2 ((sortTones_indexed lt a size).value (List.mem_range.1 hp)).1
  exact (List.subperm_of_subset hnodup hsubset).perm_of_length_le (by rw [List.length_map])

/-- The position at place `p` comes before every position that is not at one of the places up to `p`. -/
theorem sortTones_leads_rest (hlt : ∀ x y, lt x y = true ↔ x < y) (a : ℕ → α) {p j : ℕ} (hj : j < size)
    (hne : ∀ q ≤ p, j ≠ (Analysis.sortTones lt size a).2 q) : Leads a ((Analysis.sortTones lt size a).2 p) j := by
  have hmem : j ∈ (List.range size).map (Analysis.sortTones lt size a).2 :=
    (sortTones_perm hlt a size).mem_iff.2 (List.mem_range.2 hj)
  obtain ⟨q, hq, rfl⟩ := List.mem_map.1 hmem
  have hpq : p < q := by
    by_contra hqp
    exact hne q (not_lt.1 hqp) rfl
  exact sortTones_leads hlt a hpq (List.mem_range.1 hq)

/-- The value that the sort puts in front is the largest. -/
theorem le_sortTones (hlt : ∀ x y, lt x y = true ↔ x < y) :
    ∀ j < size, a j ≤ a ((Analysis.sortTones lt size a).2 0) := by
  intro j hj
  by_cases hj0 : j = (Analysis.sortTones lt size a).2 0
  · exact (congrArg a hj0).le
  · refine (sortTones_leads_rest hlt a hj fun q hq => ?_).le
    obtain rfl : q = 0 := by omega
    exact hj0

/-! ## The two searches -/

variable {gt : α → α → Bool}

theorem sortTones_first (hlt : ∀ x y, lt x y = true ↔ x < y) (hgt : ∀ x y, gt x y = true ↔ y < x) (a : ℕ → α)
    (hsize : 0 < size) : (Analysis.sortTones lt size a).2 0 = maxValueIdx gt a size := by
  by_contra hne
  have hidx := ((sortTones_indexed lt a size).value hsize).1
  refine (maxValueIdx_leads hgt a hidx hne).asymm ?_
  refine sortTones_leads_rest hlt a (maxValueIdx_lt gt a hsize) fun q hq => ?_
  obtain rfl : q = 0 := by omega
  exact Ne.symm hne

theorem sortTones_second (hlt : ∀ x y, lt x y = true ↔ x < y) (hgt : ∀ x y, gt x y = true ↔ y < x) (a : ℕ → α)
    (hsize : 2 ≤ size) : (Analysis.sortTones lt size a).2 1 = secondValueIdx gt a size := by
  have hstable := (sortTones_spec hlt a size).1
  have hfirst := sortTones_first hlt hgt a (show 0 < size by omega)
  obtain ⟨hsecond, hother⟩ := secondValueIdx_spec gt a hsize
  by_contra hne
  have hidx := ((sortTones_indexed lt a size).value hsize).1
  have hne0 : (Analysis.sortTones lt size a).2 1 ≠ maxValueIdx gt a size := by
    intro heq
    have h10 := hstable.injective 1 hsize 0 (by omega) (heq.trans hfirst.symm)
    omega
  refine (secondValueIdx_leads hgt a hidx hne0 hne).asymm ?_
  refine sortTones_leads_rest hlt a hsecond fun q hq => ?_
  rcases Nat.le_one_iff_eq_zero_or_eq_one.1 hq with rfl | rfl
  · rw [hfirst]
    exact hother
  · exact Ne.symm hne

end Order

end Exchange

section Rankings

variable {F D : Type} [Floats F D]

/-- The two ways of ranking the tones agree on every array whose comparisons are those of an order: the exchange sort
leaves a permutation of the indices along which the values do not increase and equal ones are in index order, and its
first two indices are those that the two searches find. -/
theorem rankings_agree {β : Type} [LinearOrder β] (mEnergyRatios : ℕ → F) (value : ℕ → β) {n : ℕ} (hn : 2 ≤ n)
    (horder : ∀ i < n, ∀ j < n, Floats.lt (mEnergyRatios i) (mEnergyRatios j) = decide (value i < value j)) :
    let mEnergyRatiosSorted := (Analysis.sortTones Floats.lt n mEnergyRatios).1
    let mEnergyRatiosIdx := (Analysis.sortTones Floats.lt n mEnergyRatios).2
    ((List.range n).map mEnergyRatiosIdx).Perm (List.range n) ∧
      (∀ p < n, mEnergyRatiosSorted p = mEnergyRatios (mEnergyRatiosIdx p)) ∧
      (∀ p q, p < q → q < n → Leads value (mEnergyRatiosIdx p) (mEnergyRatiosIdx q)) ∧
      mEnergyRatiosIdx 0 = maxValueIdx floatGt mEnergyRatios n ∧
      mEnergyRatiosIdx 1 = secondValueIdx floatGt mEnergyRatios n ∧
      maxValueIdx floatGt mEnergyRatios n ≠ secondValueIdx floatGt mEnergyRatios n := by
  intro mEnergyRatiosSorted mEnergyRatiosIdx
  have hlt : ∀ x y : β, decide (x < y) = true ↔ x < y := fun _ _ => decide_eq_true_iff
  have hgt : ∀ x y : β, decide (y < x) = true ↔ y < x := fun _ _ => decide_eq_true_iff
  have hidx : mEnergyRatiosIdx = (Analysis.sortTones (fun x y => decide (x < y)) n value).2 := sortTones_rank horder
  have hmax : maxValueIdx floatGt mEnergyRatios n = maxValueIdx (fun x y => decide (y < x)) value n :=
    maxValueIdx_rank (by omega) fun i hi j hj => horder j hj i hi
  have hsecond : secondValueIdx floatGt mEnergyRatios n = secondValueIdx (fun x y => decide (y < x)) value n :=
    secondValueIdx_rank hn fun i hi j hj => horder j hj i hi
  refine ⟨?_, fun p hp => ((sortTones_indexed _ _ n).value hp).2, ?_, ?_, ?_, (secondValueIdx_spec _ _ hn).2.symm⟩
  · rw [hidx]
    exact sortTones_perm hlt value n
  · intro p q hpq hq
    rw [hidx]
    exact sortTones_leads hlt value hpq hq
  · rw [hidx, hmax]
    exact sortTones_first hlt hgt value (by omega)
  · rw [hidx, hsecond]
    exact sortTones_second hlt hgt value hn

/-- Nine values in three groups of equal ones. -/
theorem rankings_agree_ties :
    let mEnergyRatiosIdx := (Analysis.sortTones Floats.lt 9 (fun i => ((i % 3 : ℕ) : ℝ))).2
    mEnergyRatiosIdx 0 = maxValueIdx floatGt (fun i => ((i % 3 : ℕ) : ℝ)) 9 ∧
      mEnergyRatiosIdx 1 = secondValueIdx floatGt (fun i => ((i % 3 : ℕ) : ℝ)) 9 := by
  obtain ⟨-, -, -, hfirst, hsecond, -⟩ :=
    rankings_agree (fun i => ((i % 3 : ℕ) : ℝ)) (fun i => i % 3) (n := 9) (by decide)
      fun i _ j _ => decide_eq_decide.2 Nat.cast_lt
  exact ⟨hfirst, hsecond⟩

end Rankings

end Undertone

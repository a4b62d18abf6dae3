import Undertone.Lib.Bounded
import Undertone.ReedSolomon.Code

/-!
# `Decode` with its arrays as long as the constructor makes them

The phases of `Decode` once more, with every access to an array compared with the length that the constructor
allocates: a run with an access outside has no outcome. Apart from the words that vanish at `α, ..., α^7` and not at
`α^8` the run is that of `Decode`; on these words the last round of the Berlekamp iteration makes a row of length 8,
whose ninth cell `elp` does not have (`decode_in_bounds_iff`).
-/

namespace Undertone

open CountedLoop BoundedArray

namespace ReedSolomon

namespace Checked

/-! ## The phases -/

/-- `alpha_to[e % nn]` -/
def exp (rs : ReedSolomon) (e : ℤ) : Option ℤ := get (nn + 1) rs.alpha_to (e.tmod nn)

/-- `index_of[x]` -/
def log (rs : ReedSolomon) (x : ℤ) : Option ℤ := get (nn + 1) rs.index_of x

/-- `elp[i][j]` -/
def getElp (elp : ℕ → ℕ → ℤ) (i j : ℤ) : Option ℤ := get2 (nn - kk + 2) (nn - kk) elp i j

/-- `elp[i][j] = v` -/
def putElp (elp : ℕ → ℕ → ℤ) (i j v : ℤ) : Option (ℕ → ℕ → ℤ) := put2 (nn - kk + 2) (nn - kk) elp i j v

/-- A symbol in index form, put into polynomial form. -/
def polyForm (rs : ReedSolomon) (e : ℤ) : Option ℤ := if e ≠ -1 then get (nn + 1) rs.alpha_to e else some 0

/-- The value of `rec(X)` at `α^i`, in polynomial form. -/
def syndrome (rs : ReedSolomon) (i : ℕ) : Option ℤ :=
  forUpM 0 nn (fun j v => do
    let r ← get nn rs.recd j
    if r ≠ -1 then
      let x ← exp rs (r + i * j)
      return Int.xor v x
    else return v) 0

def syndromes (rs : ReedSolomon) : Option (Bool × ReedSolomon) := do
  let (syn_error, s) ← forUpM 1 (nn - kk + 1) (fun i (syn_error, s) => do
    let v ← syndrome rs i
    let s ← put (nn - kk + 1) s i (← log rs v)
    return (syn_error || decide (v ≠ 0), s)) (false, rs.s)
  return (syn_error, { rs with s := s })

def initTable (rs : ReedSolomon) : Option ReedSolomon := do
  let d ← put (nn - kk + 2) rs.d 0 0
  let d ← put (nn - kk + 2) d 1 (← get (nn - kk + 1) rs.s 1)
  let elp ← putElp rs.elp 0 0 0
  let elp ← putElp elp 1 0 1
  let elp ← forUpM 1 (nn - kk) (fun i elp => do
    let elp ← putElp elp 0 i (-1)
    putElp elp 1 i 0) elp
  let l ← put (nn - kk + 2) rs.l 0 0
  let l ← put (nn - kk + 2) l 1 0
  let u_lu ← put (nn - kk + 2) rs.u_lu 0 (-1)
  let u_lu ← put (nn - kk + 2) u_lu 1 0
  return { rs with d := d, elp := elp, l := l, u_lu := u_lu }

/-- `while ((d[q]==-1) && (q>0)) q--` -/
def lastNonzero (d : ℕ → ℤ) : ℕ → Option ℕ
  | 0 => do
    let _ ← get (nn - kk + 2) d 0
    return 0
  | q + 1 => do
    let dq ← get (nn - kk + 2) d (q + 1 : ℕ)
    if dq = -1 then lastNonzero d q else return q + 1

/-- The row with `d[q] != 0` and the greatest `u_lu[q]` among those before `u`. -/
def selectRow (rs : ReedSolomon) (u : ℕ) : Option ℕ := do
  let q ← lastNonzero rs.d (u - 1)
  if q > 0 then
    forDownM 0 q (fun j q => do
      let dj ← get (nn - kk + 2) rs.d j
      if dj ≠ -1 then
        let uq ← get (nn - kk + 2) rs.u_lu q
        let uj ← get (nn - kk + 2) rs.u_lu j
        return if uq < uj then j else q
      else return q) q
  else return q

/-- The next row of the table when the discrepancy `d[u]` vanishes. -/
def copyRow (u : ℕ) (rs : ReedSolomon) : Option ReedSolomon := do
  let lu ← get (nn - kk + 2) rs.l u
  let l ← put (nn - kk + 2) rs.l (u + 1 : ℕ) lu
  let elp ← forUpM 0 (lu + 1) (fun i elp => do
    let elp ← putElp elp (u + 1 : ℕ) i (← getElp elp u i)
    putElp elp u i (← log rs (← getElp elp u i))) rs.elp
  return { rs with l := l, elp := elp }

/-- The next row of the table when `d[u]` does not vanish: row `u` plus a multiple of the shifted row `q`. -/
def combineRow (u q : ℕ) (rs : ReedSolomon) : Option ReedSolomon := do
  let lu ← get (nn - kk + 2) rs.l u
  let lq ← get (nn - kk + 2) rs.l q
  let l ← put (nn - kk + 2) rs.l (u + 1 : ℕ) (if lu > lq + u - q then lu else lq + u - q)
  let elp ← forUpM 0 (nn - kk) (fun i elp => putElp elp (u + 1 : ℕ) i 0) rs.elp
  let elp ← forUpM 0 (lq + 1) (fun i elp => do
    let e ← getElp elp q i
    if e ≠ -1 then
      let du ← get (nn - kk + 2) rs.d u
      let dq ← get (nn - kk + 2) rs.d q
      putElp elp (u + 1 : ℕ) (i + u - q : ℤ) (← exp rs (du + nn - dq + e))
    else return elp) elp
  let elp ← forUpM 0 (lu + 1) (fun i elp => do
    let elp ← putElp elp (u + 1 : ℕ) i (Int.xor (← getElp elp (u + 1 : ℕ) i) (← getElp elp u i))
    putElp elp u i (← log rs (← getElp elp u i))) elp
  return { rs with l := l, elp := elp }

/-- The discrepancy of row `u`, in polynomial form. -/
def discrepancy (rs : ReedSolomon) (u : ℕ) : Option ℤ := do
  let su ← get (nn - kk + 1) rs.s u
  let v ← polyForm rs su
  let lu ← get (nn - kk + 2) rs.l u
  forUpM 1 (lu + 1) (fun i v => do
    let x ← get (nn - kk + 1) rs.s (u - i : ℤ)
    if x ≠ -1 then
      let e ← getElp rs.elp u i
      if e ≠ 0 then
        let y ← exp rs (x + (← log rs e))
        return Int.xor v y
      else return v
    else return v) v

def nextRow (u : ℕ) (rs : ReedSolomon) : Option ReedSolomon := do
  let du ← get (nn - kk + 2) rs.d u
  if du = -1 then copyRow u rs else combineRow u (← selectRow rs u) rs

/-- The body of the Berlekamp loop, after `u++`. -/
def berlekampStep (u : ℕ) (rs : ReedSolomon) : Option ReedSolomon := do
  let rs ← nextRow u rs
  let lu ← get (nn - kk + 2) rs.l (u + 1 : ℕ)
  let u_lu ← put (nn - kk + 2) rs.u_lu (u + 1 : ℕ) ((u : ℤ) - lu)
  let rs := { rs with u_lu := u_lu }
  if u < nn - kk then
    let v ← discrepancy rs (u + 1)
    let d ← put (nn - kk + 2) rs.d (u + 1 : ℕ) (← log rs v)
    return { rs with d := d }
  else return rs

/-- `do { u++; ... } while ((u < nn-kk) && (l[u+1] <= tt))` -/
def berlekamp : ℕ → ℕ → ReedSolomon → Option (ℕ × ReedSolomon)
  | 0, u, rs => return (u, rs)
  | n + 1, u, rs => do
    let rs ← berlekampStep (u + 1) rs
    if u + 1 < nn - kk then
      let l ← get (nn - kk + 2) rs.l (u + 2 : ℕ)
      if l ≤ tt then berlekamp n (u + 1) rs else return (u + 1, rs)
    else return (u + 1, rs)

def findLocator (rs : ReedSolomon) : Option (ℕ × ReedSolomon) := do
  let (u, rs) ← berlekamp (nn - kk) 0 (← initTable rs)
  return (u + 1, rs)

/-- One round of the root search: multiply every term by its power of `α` and sum. -/
def searchRound (rs : ReedSolomon) (lu : ℕ) (reg : ℕ → ℤ) : Option (ℤ × (ℕ → ℤ)) :=
  forUpM 1 (lu + 1) (fun j (q, reg) => do
    let r ← get (tt + 1) reg j
    if r ≠ -1 then
      let reg ← put (tt + 1) reg j ((r + j).tmod nn)
      let x ← get (nn + 1) rs.alpha_to (← get (tt + 1) reg j)
      return (Int.xor q x, reg)
    else return (q, reg)) (1, reg)

/-- Put `elp[u]` into index form and find its roots; the result is the number of roots. -/
def findRoots (u : ℕ) (rs : ReedSolomon) : Option (ℕ × ReedSolomon) := do
  let lu ← get (nn - kk + 2) rs.l u
  let elp ← forUpM 0 (lu + 1) (fun i elp => do putElp elp u i (← log rs (← getElp elp u i))) rs.elp
  let rs := { rs with elp := elp }
  let reg ← forUpM 1 (lu + 1) (fun i reg => do put (tt + 1) reg i (← getElp rs.elp u i)) rs.reg
  let (count, reg, root, loc) ← forUpM 1 (nn + 1) (fun i (count, reg, root, loc) => do
    let (q, reg) ← searchRound rs lu reg
    if q = 0 then
      let root ← put tt root count i
      let loc ← put tt loc count (nn - i)
      return (count + 1, reg, root, loc)
    else return (count, reg, root, loc)) (0, reg, rs.root, rs.loc)
  return (count, { rs with reg := reg, root := root, loc := loc })

/-- The sum of two symbols in index form, in polynomial form. -/
def sumForm (rs : ReedSolomon) (si ei : ℤ) : Option ℤ :=
  if si ≠ -1 ∧ ei ≠ -1 then do return Int.xor (← get (nn + 1) rs.alpha_to si) (← get (nn + 1) rs.alpha_to ei)
  else if si ≠ -1 ∧ ei = -1 then get (nn + 1) rs.alpha_to si
  else if si = -1 ∧ ei ≠ -1 then get (nn + 1) rs.alpha_to ei
  else some 0

/-- The coefficient of `x^i` in the evaluator polynomial `z(x)`, in polynomial form. -/
def evaluatorCoeff (rs : ReedSolomon) (u i : ℕ) : Option ℤ := do
  let si ← get (nn - kk + 1) rs.s i
  let ei ← getElp rs.elp u i
  let v ← sumForm rs si ei
  forUpM 1 i (fun j v => do
    let sj ← get (nn - kk + 1) rs.s j
    if sj ≠ -1 then
      let ej ← getElp rs.elp u (i - j : ℤ)
      if ej ≠ -1 then
        let x ← exp rs (ej + sj)
        return Int.xor v x
      else return v
    else return v) v

/-- Form the evaluator polynomial, in index form; `z[0] = 1` is left out. -/
def formEvaluator (u : ℕ) (rs : ReedSolomon) : Option ReedSolomon := do
  let lu ← get (nn - kk + 2) rs.l u
  let z ← forUpM 1 (lu + 1) (fun i z => do put (tt + 1) z i (← log rs (← evaluatorCoeff rs u i))) rs.z
  return { rs with z := z }

/-- Convert `recd` to polynomial form. -/
def toPolynomial (rs : ReedSolomon) : Option ReedSolomon := do
  let recd ← forUpM 0 nn (fun i recd => do
    let r ← get nn recd i
    put nn recd i (← polyForm rs r)) rs.recd
  return { rs with recd := recd }

/-- The numerator of the error term at the `i`-th location, in polynomial form. -/
def numerator (rs : ReedSolomon) (lu i : ℕ) : Option ℤ :=
  forUpM 1 (lu + 1) (fun j v => do
    let zj ← get (tt + 1) rs.z j
    if zj ≠ -1 then
      let root ← get tt rs.root i
      let x ← exp rs (zj + (j * root : ℕ))
      return Int.xor v x
    else return v) 1

/-- The logarithm of the denominator of the error term at the `i`-th location, before the final `% nn`. -/
def denominator (rs : ReedSolomon) (lu i : ℕ) : Option ℤ :=
  forUpM 0 lu (fun j q => do
    if j ≠ i then
      let loc ← get tt rs.loc j
      let root ← get tt rs.root i
      let x ← exp rs (loc + root : ℕ)
      return q + (← log rs (Int.xor 1 x))
    else return q) 0

/-- Evaluate the error at the `i`-th location and correct it. -/
def correctOne (lu i : ℕ) (rs : ReedSolomon) : Option ReedSolomon := do
  let loc ← get tt rs.loc i
  let v ← numerator rs lu i
  if v ≠ 0 then
    let q ← denominator rs lu i
    let e ← exp rs ((← log rs v) - q.tmod nn + nn)
    let err ← put nn rs.err loc e
    let recd ← put nn rs.recd loc (Int.xor (← get nn rs.recd loc) e)
    return { rs with err := err, recd := recd }
  else
    let err ← put nn rs.err loc v
    return { rs with err := err }

/-- Evaluate errors at the locations in `loc` and correct them. -/
def correctErrors (u : ℕ) (rs : ReedSolomon) : Option ReedSolomon := do
  let err ← forUpM 0 nn (fun i err => put nn err i 0) rs.err
  let lu ← get (nn - kk + 2) rs.l u
  forUpM 0 lu (correctOne lu) (← toPolynomial { rs with err := err })

def Decode (rs : ReedSolomon) : Option ReedSolomon := do
  let (syn_error, rs) ← syndromes rs
  if syn_error then
    let (u, rs) ← findLocator rs
    let lu ← get (nn - kk + 2) rs.l u
    if lu ≤ tt then
      let (count, rs) ← findRoots u rs
      if count = lu then correctErrors u (← formEvaluator u rs)
      else toPolynomial rs
    else toPolynomial rs
  else toPolynomial rs

/-! ## Syndromes -/

section Symbols

variable {rs : ReedSolomon}

theorem exp_eq (rs : ReedSolomon) {e : ℤ} (h : 0 ≤ e) : exp rs e = some (rs.exp e) := by
  have h1 := Int.tmod_nonneg nn h
  have h2 := Int.tmod_lt_of_pos e (show (0 : ℤ) < nn by decide)
  exact get_eq h1 (by rw [Nat.cast_add]; omega) _

theorem log_eq (rs : ReedSolomon) {x : ℤ} (h : Sym x) : log rs x = some (rs.log x) := get_eq h.1 h.2 _

theorem alpha_to_eq (rs : ReedSolomon) {e : ℤ} (h : Idx e) (h0 : e ≠ -1) :
    get (nn + 1) rs.alpha_to e = some (rs.alpha_to e.toNat) := by
  obtain ⟨h1, h2⟩ := h
  have hnn : ((nn + 1 : ℕ) : ℤ) = 32 := rfl
  exact get_eq (by omega) (by omega) _

theorem polyForm_eq (rs : ReedSolomon) {e : ℤ} (h : Idx e) :
    polyForm rs e = some (if e ≠ -1 then rs.alpha_to e.toNat else 0) := by
  unfold polyForm
  by_cases h0 : e = -1
  · rw [if_neg (not_not.2 h0), if_neg (not_not.2 h0)]
  · rw [if_pos h0, if_pos h0, alpha_to_eq rs h h0]

theorem syndrome_eq (hr : ∀ j < 31, Idx (rs.recd j)) (i : ℕ) : syndrome rs i = some (rs.syndrome i) := by
  refine forUpM_rule (fun _ _ => True) trivial fun j v _ hj _ => ⟨?_, trivial⟩
  have hidx := (hr j hj).1
  rw [get_cast hj, Option.bind_eq_bind, Option.bind_some]
  by_cases h0 : rs.recd j = -1
  · rw [if_neg (not_not.2 h0), if_neg (not_not.2 h0)]
    rfl
  · have hpos : (0 : ℤ) ≤ i * j := by positivity
    rw [if_pos h0, if_pos h0, exp_eq rs (by omega)]
    rfl

theorem syndromes_eq (ht : Tables rs) (hr : ∀ j < 31, Idx (rs.recd j)) :
    syndromes rs = some (ReedSolomon.syndromes rs) := by
  have hloop : forUpM 1 (nn - kk + 1) (fun i (st : Bool × (ℕ → ℤ)) => do
      let v ← syndrome rs i
      let s ← put (nn - kk + 1) st.2 i (← log rs v)
      return (st.1 || decide (v ≠ 0), s)) (false, rs.s) =
      some (forUp 1 (nn - kk + 1) (fun i (st : Bool × (ℕ → ℤ)) =>
        (st.1 || decide (rs.syndrome i ≠ 0), Function.update st.2 i (rs.log (rs.syndrome i)))) (false, rs.s)) := by
    refine forUpM_rule (fun _ _ => True) trivial fun i st _ hi _ => ⟨?_, trivial⟩
    have hsym := (syndrome_spec alpha_root ht hr i).1
    rw [syndrome_eq hr, Option.bind_eq_bind, Option.bind_some, log_eq rs hsym, Option.bind_eq_bind, Option.bind_some,
      put_cast hi]
    rfl
  unfold syndromes
  exact congrArg (Option.bind · _) hloop

end Symbols

/-! ## The Berlekamp iteration -/

section Iteration

variable {rs : ReedSolomon}

theorem initTable_eq (rs : ReedSolomon) : initTable rs = some (ReedSolomon.initTable rs) := by
  have hloop : forUpM 1 (nn - kk) (fun i elp => do
      let elp ← putElp elp 0 i (-1)
      putElp elp 1 i 0) (set2 (set2 rs.elp 0 0 0) 1 0 1) =
      some (forUp 1 (nn - kk) (fun i elp => set2 (set2 elp 0 i (-1)) 1 i 0) (set2 (set2 rs.elp 0 0 0) 1 0 1)) := by
    refine forUpM_rule (fun _ _ => True) trivial fun i elp _ hi _ => ⟨?_, trivial⟩
    have h0 := put2_cast (show 0 < nn - kk + 2 by decide) hi elp (-1)
    have h1 := put2_cast (show 1 < nn - kk + 2 by decide) hi (set2 elp 0 i (-1)) 0
    exact (congrArg (Option.bind · _) h0).trans h1
  exact congrArg (Option.bind · fun elp => some { ReedSolomon.initTable rs with elp := elp }) hloop

theorem lastNonzero_eq (d : ℕ → ℤ) : ∀ n ≤ 9, lastNonzero d n = some (ReedSolomon.lastNonzero d n)
  | 0, _ => rfl
  | n + 1, hn => by
    rw [lastNonzero, get_cast (show n + 1 < nn - kk + 2 from Nat.lt_succ_of_le hn), Option.bind_eq_bind,
      Option.bind_some, ReedSolomon.lastNonzero]
    split
    · exact lastNonzero_eq d n (by omega)
    · rfl

theorem selectRow_eq {u : ℕ} (hu : u ≤ 9) (h0 : rs.d 0 ≠ -1) : selectRow rs u = some (rs.selectRow u) := by
  have hle := (lastNonzero_spec h0 (u - 1)).1
  unfold selectRow ReedSolomon.selectRow
  rw [lastNonzero_eq rs.d (u - 1) (by omega), Option.bind_eq_bind, Option.bind_some]
  generalize ReedSolomon.lastNonzero rs.d (u - 1) = q0 at hle
  simp only
  split
  · refine forDownM_rule (fun _ q => q ≤ 8) (by omega) fun j q _ hj hq => ?_
    have hn : nn - kk + 2 = 10 := rfl
    rw [get_cast (by omega), get_cast (by omega), get_cast (by omega)]
    by_cases hd : rs.d j = -1
    · rw [if_neg (fun h => h.1 hd)]
      exact ⟨if_neg (not_not.2 hd), hq⟩
    · simp only [Option.bind_eq_bind, Option.bind_some, ne_eq, hd, not_false_eq_true, if_true, true_and]
      exact ⟨rfl, by split <;> omega⟩
  · rfl

theorem copyRow_eq {u : ℕ} (hu : u ≤ 8) (hl : rs.l u < 8) (hs : ∀ i ≤ rs.l u, Sym (rs.elp u i)) :
    copyRow u rs = some (ReedSolomon.copyRow u rs) := by
  have hn : nn - kk = 8 := rfl
  have hloop : forUpM 0 (rs.l u + 1) (fun i elp => do
      let elp ← putElp elp (u + 1 : ℕ) i (← getElp elp u i)
      putElp elp u i (← log rs (← getElp elp u i))) rs.elp =
      some (forUp 0 (rs.l u + 1) (fun i elp =>
        let elp := set2 elp (u + 1) i (elp u i)
        set2 elp u i (rs.log (elp u i))) rs.elp) := by
    refine forUpM_eq fun i _ hi => ?_
    have hcell := copyCells rs u i u i
    rw [if_neg (by omega), if_neg (by omega)] at hcell
    generalize forUp 0 i _ rs.elp = E at hcell
    have hkeep : set2 E (u + 1) i (E u i) u i = E u i := by rw [set2_apply, if_neg (by omega)]
    simp only [getElp, putElp, Option.bind_eq_bind]
    rw [get2_cast (by omega) (by omega), Option.bind_some, put2_cast (by omega) (by omega), Option.bind_some,
      get2_cast (by omega) (by omega), Option.bind_some, hkeep, log_eq rs (by rw [hcell]; exact hs i (by omega)),
      Option.bind_some, put2_cast (by omega) (by omega)]
  unfold copyRow
  rw [get_cast (by omega), Option.bind_eq_bind, Option.bind_some, put_cast (by omega), Option.bind_eq_bind,
    Option.bind_some]
  exact congrArg (Option.bind · _) hloop

theorem combineRow_eq {u q : ℕ} (hq : q < u) (hu : u ≤ 8) (hlu : rs.l u < 8) (hlq : rs.l q + u - q < 8)
    (hdu : Idx (rs.d u) ∧ rs.d u ≠ -1) (hdq : Idx (rs.d q)) (he : ∀ i ≤ rs.l q, Idx (rs.elp q i))
    (hs : ∀ i ≤ rs.l u, Sym (rs.elp u i)) :
    combineRow u q rs = some (ReedSolomon.combineRow u q rs) := by
  have hn : nn - kk = 8 := rfl
  obtain ⟨⟨hdu1, -⟩, hdu0⟩ := hdu
  have hclear : forUpM 0 (nn - kk) (fun i elp => putElp elp (u + 1 : ℕ) i 0) rs.elp =
      some (forUp 0 (nn - kk) (fun i elp => set2 elp (u + 1) i 0) rs.elp) :=
    forUpM_rule (fun _ _ => True) trivial fun i elp _ hi _ => ⟨put2_cast (by omega) hi elp 0, trivial⟩
  have hold : ∀ p k, p ≠ u + 1 → forUp 0 (nn - kk) (fun i elp => set2 elp (u + 1) i 0) rs.elp p k = rs.elp p k :=
    fun p k hp => by rw [clearCells, if_neg (fun h => hp h.2)]
  have hscale : ∀ E : ℕ → ℕ → ℤ, (∀ k, E q k = rs.elp q k) → forUpM 0 (rs.l q + 1) (fun i elp => do
      let e ← getElp elp q i
      if e ≠ -1 then
        let du ← get (nn - kk + 2) rs.d u
        let dq ← get (nn - kk + 2) rs.d q
        putElp elp (u + 1 : ℕ) (i + u - q : ℤ) (← exp rs (du + nn - dq + e))
      else return elp) E =
      some (forUp 0 (rs.l q + 1) (fun i elp => if elp q i ≠ -1 then
        set2 elp (u + 1) (i + u - q) (rs.exp (rs.d u + nn - rs.d q + elp q i)) else elp) E) := fun E hE => by
    refine forUpM_eq fun i _ hi => ?_
    have hcell := scaleCells rs hq i E q i
    rw [if_neg (by omega), hE] at hcell
    generalize forUp 0 i _ E = F at hcell
    have hidx := (he i (by omega)).1
    have hpos : (i + u - q : ℤ) = (i + u - q : ℕ) := by omega
    simp only [getElp, putElp, Option.bind_eq_bind]
    rw [get2_cast (by omega) (by omega), Option.bind_some, hcell]
    by_cases h0 : rs.elp q i = -1
    · rw [if_neg (not_not.2 h0), if_neg (not_not.2 h0)]
      rfl
    · have hd1 := hdq.2
      have hnn : (nn : ℤ) = 31 := rfl
      rw [if_pos h0, if_pos h0, get_cast (by omega), Option.bind_some, get_cast (by omega), Option.bind_some,
        exp_eq rs (by omega), Option.bind_some, hpos, put2_cast (by omega) (by omega)]
  have hadd : ∀ E : ℕ → ℕ → ℤ, (∀ k, E u k = rs.elp u k) → forUpM 0 (rs.l u + 1) (fun i elp => do
      let elp ← putElp elp (u + 1 : ℕ) i (Int.xor (← getElp elp (u + 1 : ℕ) i) (← getElp elp u i))
      putElp elp u i (← log rs (← getElp elp u i))) E =
      some (forUp 0 (rs.l u + 1) (fun i elp =>
        let elp := set2 elp (u + 1) i (Int.xor (elp (u + 1) i) (elp u i))
        set2 elp u i (rs.log (elp u i))) E) := fun E hE => by
    refine forUpM_eq fun i _ hi => ?_
    have hcell := addCells rs u i E u i
    rw [if_neg (by omega), if_neg (by omega), hE] at hcell
    generalize forUp 0 i _ E = F at hcell
    have hkeep : ∀ x, set2 F (u + 1) i x u i = F u i := fun x => by rw [set2_apply, if_neg (by omega)]
    simp only [getElp, putElp, Option.bind_eq_bind]
    rw [get2_cast (by omega) (by omega), Option.bind_some, get2_cast (by omega) (by omega), Option.bind_some,
      put2_cast (by omega) (by omega), Option.bind_some, get2_cast (by omega) (by omega), Option.bind_some, hkeep,
      log_eq rs (by rw [hcell]; exact hs i (by omega)), Option.bind_some, put2_cast (by omega) (by omega)]
  unfold combineRow
  simp only [Option.bind_eq_bind]
  rw [get_cast (by omega), Option.bind_some, get_cast (by omega), Option.bind_some, put_cast (by omega),
    Option.bind_some, hclear, Option.bind_some]
  have h1 := hscale _ fun k => hold q k (by omega)
  simp only [Option.bind_eq_bind] at h1
  rw [h1, Option.bind_some]
  have h2 := hadd _ fun k => (scaleCells rs hq (rs.l q + 1) _ u k).trans
    ((if_neg fun h => absurd h.1 (by omega)).trans (hold u k (by omega)))
  simp only [Option.bind_eq_bind] at h2
  rw [h2]
  rfl

theorem discrepancy_eq {u : ℕ} (hu : u ≤ 8) (hl : rs.l u < u) (hsyn : ∀ n, 1 ≤ n → n ≤ 8 → Idx (rs.s n))
    (he : ∀ i ≤ rs.l u, Sym (rs.elp u i)) (ht : Tables rs) : discrepancy rs u = some (rs.discrepancy u) := by
  have hn : nn - kk = 8 := rfl
  unfold discrepancy
  simp only [Option.bind_eq_bind, Option.pure_def]
  rw [get_cast (by omega), Option.bind_some, polyForm_eq rs (hsyn u (by omega) hu), Option.bind_some,
    get_cast (by omega), Option.bind_some]
  refine forUpM_rule (fun _ _ => True) trivial fun i v h1 hi _ => ⟨?_, trivial⟩
  have hpos : (u - i : ℤ) = (u - i : ℕ) := by omega
  rw [hpos, get_cast (by omega), Option.bind_some]
  by_cases h0 : rs.s (u - i) = -1
  · rw [if_neg (not_not.2 h0), if_neg (fun h => h.1 h0)]
  · rw [if_pos h0, getElp, get2_cast (by omega) (by omega), Option.bind_some]
    by_cases hz : rs.elp u i = 0
    · rw [if_neg (not_not.2 hz), if_neg (fun h => h.2 hz)]
    · have hsym := he i (by omega)
      have hidx := (hsyn (u - i) (by omega) (by omega)).1
      have hlog := ht.log_nonneg hsym hz
      rw [if_pos hz, if_pos ⟨h0, hz⟩, log_eq rs hsym, Option.bind_some, exp_eq rs (by omega), Option.bind_some]

variable {S : ℕ → GaloisField 2 5} {v : ℕ}

theorem nextRow_eq (h : Rows alpha S v rs) (hn : Next alpha S v rs) (hv : v ≤ 8)
    (hlen : (ReedSolomon.nextRow v rs).l (v + 1) < 8) : nextRow v rs = some (ReedSolomon.nextRow v rs) := by
  unfold nextRow
  rw [get_cast (show v < nn - kk + 2 from Nat.lt_of_le_of_lt hv (by decide)), Option.bind_eq_bind, Option.bind_some]
  by_cases hz : rs.d v = -1
  · rw [if_pos hz, ReedSolomon.nextRow, if_pos hz]
    exact copyRow_eq hv (h.l_lt hv v le_rfl) h.last
  · have hq := (selectRow_spec rs h.table.pos h.d_zero).1
    have hrow : ReedSolomon.nextRow v rs = ReedSolomon.combineRow v (rs.selectRow v) rs := if_neg hz
    rw [if_neg hz, hrow, selectRow_eq (by omega) h.d_zero, Option.bind_eq_bind, Option.bind_some]
    rw [hrow] at hlen
    generalize rs.selectRow v = q at hq hlen
    have hlq : rs.l q + v - q < 8 := by
      simp only [ReedSolomon.combineRow, Function.update_self] at hlen
      split at hlen <;> omega
    exact combineRow_eq hq hv (h.l_lt hv v le_rfl) hlq ⟨hn.1, hz⟩ (h.idx q hq) (h.done q hq) h.last

theorem berlekampStep_eq (h : Rows alpha S v rs) (hn : Next alpha S v rs) (hv : v ≤ 8)
    (hlen : (ReedSolomon.nextRow v rs).l (v + 1) < 8) :
    berlekampStep v rs = some (ReedSolomon.berlekampStep v rs) := by
  have hk : nn - kk = 8 := rfl
  have hrows := nextRow_rows alpha_root h hn hv hlen
  have hstep : ∀ r, r = { ReedSolomon.nextRow v rs with
      u_lu := Function.update (ReedSolomon.nextRow v rs).u_lu (v + 1)
        ((v : ℤ) - (ReedSolomon.nextRow v rs).l (v + 1)) } →
      ReedSolomon.berlekampStep v rs =
        if v < 8 then { r with d := Function.update r.d (v + 1) (r.log (r.discrepancy (v + 1))) } else r := by
    rintro r rfl
    rfl
  unfold berlekampStep
  simp only [Option.bind_eq_bind]
  rw [nextRow_eq h hn hv hlen, Option.bind_some, get_cast (by omega), Option.bind_some, put_cast (by omega),
    Option.bind_some]
  generalize hr : { ReedSolomon.nextRow v rs with
    u_lu := Function.update (ReedSolomon.nextRow v rs).u_lu (v + 1)
      ((v : ℤ) - (ReedSolomon.nextRow v rs).l (v + 1)) } = r at hrows hstep
  rw [hstep r rfl]
  by_cases hv8 : v < 8
  · have hrow := hrows.table.row (v + 1) (by omega) le_rfl
    have hhead := hrow.1.head
    rw [cells, if_neg (Nat.lt_irrefl _)] at hhead
    have hsym := (discrepancy_spec alpha_root hrows.tables hrows.syn (by omega) hrow.2 hrows.last hhead).1
    rw [if_pos hv8, if_pos (by omega),
      discrepancy_eq (by omega) hrow.2 (fun n h1 h8 => (hrows.syn n h1 h8).1) hrows.last
      hrows.tables, Option.bind_some, log_eq r hsym, Option.bind_some, put_cast (by omega), Option.bind_some, ← hr]
    rfl
  · rw [if_neg hv8, if_neg (by omega), ← hr]
    rfl

/-- The syndromes vanish up to the last one, which does not. -/
def LastOnly (S : ℕ → GaloisField 2 5) : Prop := (∀ n, 1 ≤ n → n < 8 → S n = 0) ∧ S 8 ≠ 0

/-- Apart from these syndromes every new row fits into the eight cells of its row. -/
theorem nextRow_fits (h : Rows alpha S v rs) (hn : Next alpha S v rs) (hv : v ≤ 8) (hl : rs.l v ≤ 4)
    (hS : ¬ LastOnly S) : (ReedSolomon.nextRow v rs).l (v + 1) < 8 := by
  rw [nextRow_length alpha_root h]
  by_cases hz : rs.d v = -1
  · rw [if_pos hz]
    omega
  · rw [if_neg hz]
    by_contra hlen
    obtain ⟨rfl, hl0⟩ : v = 8 ∧ rs.l v = 0 := by omega
    -- a row of length 0 stops at the first syndrome that does not vanish
    obtain ⟨hrow, -⟩ := h.table.row 8 (by omega) le_rfl
    have hdisc : ∀ n, Recurrence.disc (cells alpha 8 rs 8) (rs.l 8) S n = S n := fun n => by
      rw [Recurrence.disc, hl0, Finset.sum_range_one, hrow.head, one_mul, Nat.sub_zero]
    refine hS ⟨fun n h1 h8 => ?_, fun h0 => hz (ofIndex_eq_zero alpha_root ?_)⟩
    · rw [← hdisc n]
      exact hrow.zero n (by omega) h8
    · rw [hn.2, hdisc, h0]

theorem berlekamp_eq (hS : ¬ LastOnly S) :
    ∀ (n u : ℕ) (rs : ReedSolomon), u + n = 8 → Rows alpha S (u + 1) rs → (u < 8 → Next alpha S (u + 1) rs) →
      rs.l (u + 1) ≤ 4 → berlekamp n u rs = some (ReedSolomon.berlekamp n u rs)
  | 0, _, _, _, _, _, _ => rfl
  | n + 1, u, rs, hu, hr, hn, hl => by
    have hk : nn - kk = 8 := rfl
    have hfit := nextRow_fits hr (hn (by omega)) (by omega) hl hS
    obtain ⟨hr', hn'⟩ := hr.step alpha_root (hn (by omega)) (by omega) hfit
    rw [berlekamp, berlekampStep_eq hr (hn (by omega)) (by omega) hfit, Option.bind_eq_bind, Option.bind_some,
      ReedSolomon.berlekamp]
    by_cases hu8 : u + 1 < nn - kk
    · rw [if_pos hu8, get_cast (by omega), Option.bind_eq_bind, Option.bind_some]
      by_cases hl' : (ReedSolomon.berlekampStep (u + 1) rs).l (u + 2) ≤ tt
      · rw [if_pos hl', if_pos ⟨hu8, hl'⟩]
        exact berlekamp_eq hS n (u + 1) _ (by omega) hr' hn' hl'
      · rw [if_neg hl', if_neg (fun h => hl' h.2)]
        rfl
    · rw [if_neg hu8, if_neg (fun h => hu8 h.1)]
      rfl

/-- On these syndromes the last round writes to the ninth cell of its row. -/
theorem nextRow_none (h : Rows alpha S 8 rs) (hq : Quiet 8 rs) (hd : rs.d 8 ≠ -1) : nextRow 8 rs = none := by
  have hsel := hq.selectRow_eq
  have he : rs.elp 0 0 ≠ -1 := fun h0 => by
    have h1 := h.table.sentinel.1
    rw [cells, if_pos (by omega), h0, ofIndex_neg_one] at h1
    exact zero_ne_one h1
  have hcombine : combineRow 8 0 rs = none := by
    have hclear : forUpM 0 (nn - kk) (fun i elp => putElp elp (8 + 1 : ℕ) i 0) rs.elp =
        some (forUp 0 (nn - kk) (fun i elp => set2 elp (8 + 1) i 0) rs.elp) :=
      forUpM_rule (fun _ _ => True) trivial fun i elp _ hi _ => ⟨put2_cast (by decide) hi elp 0, trivial⟩
    have hcell : forUp 0 (nn - kk) (fun i elp => set2 elp (8 + 1) i 0) rs.elp 0 0 = rs.elp 0 0 := by
      rw [clearCells, if_neg (fun h => absurd h.2 (by decide))]
    unfold combineRow
    simp only [Option.bind_eq_bind]
    rw [get_cast (by decide), Option.bind_some, get_cast (by decide), Option.bind_some, put_cast (by decide),
      Option.bind_some, hclear, Option.bind_some, forUpM_none (Nat.succ_pos _), Option.bind_none]
    rw [getElp, get2_cast (by decide) (by decide), Option.bind_some, hcell, if_pos he]
    refine Option.bind_eq_none_iff.2 fun _ _ => Option.bind_eq_none_iff.2 fun _ _ =>
      Option.bind_eq_none_iff.2 fun _ _ => ?_
    exact put2_outside (by decide) _ _
  unfold nextRow
  rw [get_cast (by decide), Option.bind_eq_bind, Option.bind_some, if_neg hd, selectRow_eq (by omega) h.d_zero, hsel,
    Option.bind_eq_bind, Option.bind_some, hcombine]

theorem berlekamp_none (hS : LastOnly S) :
    ∀ (n u : ℕ) (rs : ReedSolomon), u + (n + 1) = 8 → Rows alpha S (u + 1) rs → Next alpha S (u + 1) rs →
      Quiet (u + 1) rs → (∀ q, 1 ≤ q → q ≤ 8 → ∃ x, Sym x ∧ rs.s q = rs.log x) → berlekamp (n + 1) u rs = none
  | 0, u, rs, hu, hr, hn, hq, _ => by
    obtain rfl : u = 7 := by omega
    have hd : rs.d 8 ≠ -1 := fun h0 => by
      have hs := (hr.syn 8 (by omega) le_rfl).2
      rw [← hq.d_last, h0, ofIndex_neg_one] at hs
      exact hS.2 hs.symm
    rw [berlekamp, berlekampStep, nextRow_none hr hq hd]
    rfl
  | n + 1, u, rs, hu, hr, hn, hq, hx => by
    have hk : nn - kk = 8 := rfl
    have hs : rs.s (u + 1) = -1 := by
      have hs := (hr.syn (u + 1) (by omega) (by omega)).2
      rw [hS.1 (u + 1) (by omega) (by omega)] at hs
      exact ofIndex_eq_zero alpha_root hs
    have hfit : (ReedSolomon.nextRow (u + 1) rs).l (u + 1 + 1) < 8 := by
      rw [nextRow_length alpha_root hr, if_pos (hq.d_last.trans hs), hq.l_last]
      omega
    obtain ⟨hr', hn'⟩ := hr.step alpha_root hn (by omega) hfit
    have hq' := hq.step hr.tables (by omega) (by omega) hs (hx (u + 1 + 1) (by omega) (by omega))
    obtain ⟨d, elp, l, u_lu, hstep⟩ := berlekampStep_frame (u + 1) rs
    rw [berlekamp, berlekampStep_eq hr hn (by omega) hfit, Option.bind_eq_bind, Option.bind_some, if_pos (by omega),
      get_cast (by omega), Option.bind_eq_bind, Option.bind_some, if_pos (by rw [hq'.l_last]; exact Nat.zero_le _)]
    exact berlekamp_none hS n (u + 1) _ (by omega) hr' (hn' (by omega)) hq' (by rw [hstep]; exact hx)

end Iteration

/-! ## The root search -/

section Search

variable {rs : ReedSolomon}

theorem searchRound_eq {lu : ℕ} (hlu : lu ≤ 4) {reg : ℕ → ℤ} (hreg : ∀ j, 1 ≤ j → j ≤ lu → Idx (reg j)) :
    searchRound rs lu reg = some (rs.searchRound lu reg) := by
  have ht : tt = 4 := rfl
  refine forUpM_rule (fun j (st : ℤ × (ℕ → ℤ)) => ∀ k, j ≤ k → st.2 k = reg k) (fun _ _ => rfl) ?_
  rintro j ⟨q, b⟩ h1 hj hrest
  have hb : b j = reg j := hrest j le_rfl
  simp only [Option.bind_eq_bind, Option.pure_def]
  rw [get_cast (by omega), Option.bind_some, hb]
  by_cases h0 : reg j = -1
  · rw [if_neg (not_not.2 h0), if_neg (not_not.2 h0)]
    exact ⟨rfl, fun k hk => hrest k (by omega)⟩
  · have hidx := (hreg j h1 (by omega)).1
    obtain ⟨hmod, hmod0, -⟩ := ofIndex_tmod alpha_root (show 0 ≤ reg j by omega) j
    rw [if_pos h0, if_pos h0, put_cast (by omega), Option.bind_some, get_cast (by omega), Option.bind_some,
      Function.update_self, alpha_to_eq rs hmod hmod0, Option.bind_some]
    exact ⟨rfl, fun k hk => (Function.update_of_ne (by omega) _ _).trans (hrest k (by omega))⟩

theorem findRoots_eq (ht : Tables rs) {u : ℕ} (hu : u ≤ 9) (hl : rs.l u ≤ 4) (hs : ∀ j ≤ rs.l u, Sym (rs.elp u j)) :
    findRoots u rs = some (ReedSolomon.findRoots u rs) := by
  have hn : nn - kk = 8 := rfl
  have htt : tt = 4 := rfl
  have hindex : forUpM 0 (rs.l u + 1) (fun i elp => do putElp elp u i (← log rs (← getElp elp u i))) rs.elp =
      some (forUp 0 (rs.l u + 1) (fun i elp => set2 elp u i (rs.log (elp u i))) rs.elp) := by
    refine forUpM_eq fun i _ hi => ?_
    have hcell := indexCells rs u i i
    rw [if_neg (Nat.lt_irrefl i)] at hcell
    generalize forUp 0 i _ rs.elp = F at hcell
    simp only [getElp, putElp, Option.bind_eq_bind]
    rw [get2_cast (by omega) (by omega), Option.bind_some, log_eq rs (by rw [hcell]; exact hs i (by omega)),
      Option.bind_some, put2_cast (by omega) (by omega)]
  have hcell : ∀ j ≤ rs.l u, Idx (forUp 0 (rs.l u + 1) (fun i elp => set2 elp u i (rs.log (elp u i))) rs.elp u j) :=
    fun j hj => by
      rw [indexCells, if_pos (Nat.lt_succ_of_le hj)]
      exact ht.log_idx (hs j hj)
  unfold findRoots
  simp only [Option.bind_eq_bind] at hindex ⊢
  rw [get_cast (by omega), Option.bind_some, hindex, Option.bind_some]
  unfold ReedSolomon.findRoots
  simp only
  generalize forUp 0 (rs.l u + 1) (fun i elp => set2 elp u i (rs.log (elp u i))) rs.elp = E at hcell
  have hreg : forUpM 1 (rs.l u + 1) (fun i reg => (getElp E u i).bind fun e => put (tt + 1) reg i e) rs.reg =
      some (forUp 1 (rs.l u + 1) (fun i reg => Function.update reg i (E u i)) rs.reg) := by
    refine forUpM_rule (fun _ _ => True) trivial fun i reg _ hi _ => ⟨?_, trivial⟩
    rw [getElp, get2_cast (by omega) (by omega), Option.bind_some, put_cast (by omega)]
  have htE : Tables { rs with elp := E } := ht.of_eq rfl rfl
  have hsearch : forUpM 1 (nn + 1) (fun i (st : ℕ × (ℕ → ℤ) × (ℕ → ℕ) × (ℕ → ℕ)) =>
      (searchRound { rs with elp := E } (rs.l u) st.2.1).bind fun qr =>
        if qr.1 = 0 then
          (put tt st.2.2.1 st.1 i).bind fun root => (put tt st.2.2.2 st.1 (nn - i)).bind fun loc =>
            some (st.1 + 1, qr.2, root, loc)
        else some (st.1, qr.2, st.2.2.1, st.2.2.2))
      (0, forUp 1 (rs.l u + 1) (fun i reg => Function.update reg i (E u i)) rs.reg, rs.root, rs.loc) =
      some (forUp 1 (nn + 1) (searchStep { rs with elp := E } (rs.l u))
        (0, forUp 1 (rs.l u + 1) (fun i reg => Function.update reg i (E u i)) rs.reg, rs.root, rs.loc)) := by
    refine forUpM_rule (Searched alpha (fun j => ofIndex alpha (E u j)) (rs.l u))
      (searched_init (E u) hcell rs.reg rs.root rs.loc) fun i st h1 hi h => ?_
    have hstep := h.step alpha_root htE h1
    have hcount := hstep.count_le alpha_root (Nat.succ_le_succ (Nat.le_of_lt_succ hi))
    refine ⟨?_, hstep⟩
    rw [searchRound_eq hl (fun j h1 h2 => (h.reg j h1 h2).1), Option.bind_some]
    unfold searchStep at hcount ⊢
    by_cases hz : (ReedSolomon.searchRound { rs with elp := E } (rs.l u) st.2.1).1 = 0
    · rw [if_pos hz] at hcount ⊢
      have hlt : st.1 < tt := Nat.lt_of_lt_of_le (Nat.lt_of_succ_le hcount) hl
      rw [put_cast hlt, Option.bind_some, put_cast hlt, Option.bind_some, if_pos hz]
    · rw [if_neg hz, if_neg hz]
  rw [hreg, Option.bind_some]
  exact congrArg (Option.bind · _) hsearch

end Search

/-! ## The correction -/

section Correction

variable {rs : ReedSolomon} {S : ℕ → GaloisField 2 5}

theorem evaluatorCoeff_eq {u i : ℕ} (hu : u ≤ 9) (h1 : 1 ≤ i) (h4 : i ≤ 4)
    (hs : ∀ n, 1 ≤ n → n ≤ 8 → Idx (rs.s n)) (he : ∀ j ≤ i, Idx (rs.elp u j)) :
    evaluatorCoeff rs u i = some (rs.evaluatorCoeff u i) := by
  have hn : nn - kk = 8 := rfl
  have hstart : ∀ a b : ℤ, Idx a → Idx b → sumForm rs a b = some
      (if a ≠ -1 ∧ b ≠ -1 then Int.xor (rs.alpha_to a.toNat) (rs.alpha_to b.toNat)
        else if a ≠ -1 ∧ b = -1 then rs.alpha_to a.toNat
        else if a = -1 ∧ b ≠ -1 then rs.alpha_to b.toNat else 0) := fun a b ha hb => by
    unfold sumForm
    by_cases h1 : a = -1
    · by_cases h2 : b = -1
      · simp [h1, h2]
      · simpa [h1, h2] using alpha_to_eq rs hb h2
    · by_cases h2 : b = -1
      · simpa [h1, h2] using alpha_to_eq rs ha h1
      · rw [if_pos ⟨h1, h2⟩, if_pos ⟨h1, h2⟩, alpha_to_eq rs ha h1, alpha_to_eq rs hb h2]
        rfl
  unfold evaluatorCoeff
  simp only [Option.bind_eq_bind, Option.pure_def]
  rw [get_cast (by omega), Option.bind_some, getElp, get2_cast (by omega) (by omega), Option.bind_some,
    hstart _ _ (hs i h1 (by omega)) (he i le_rfl), Option.bind_some]
  refine forUpM_rule (fun _ _ => True) trivial fun j v hj hji _ => ⟨?_, trivial⟩
  have hpos : (i - j : ℤ) = (i - j : ℕ) := by omega
  rw [get_cast (by omega), Option.bind_some]
  by_cases h0 : rs.s j = -1
  · rw [if_neg (not_not.2 h0), if_neg (fun h => h.1 h0)]
  · rw [if_pos h0, hpos, getElp, get2_cast (by omega) (by omega), Option.bind_some]
    by_cases h2 : rs.elp u (i - j) = -1
    · rw [if_neg (not_not.2 h2), if_neg (fun h => h.2 h2)]
    · have hsj := (hs j hj (by omega)).1
      have hej := (he (i - j) (by omega)).1
      rw [if_pos h2, if_pos ⟨h0, h2⟩, exp_eq rs (by omega), Option.bind_some]

theorem formEvaluator_eq (ht : Tables rs) (hs : Syndromes alpha S rs) {u : ℕ} (hu : u ≤ 9) (hl : rs.l u ≤ 4)
    (he : ∀ j ≤ rs.l u, Idx (rs.elp u j)) : formEvaluator u rs = some (ReedSolomon.formEvaluator u rs) := by
  have hn : nn - kk = 8 := rfl
  have htt : tt = 4 := rfl
  have hloop : forUpM 1 (rs.l u + 1) (fun i z =>
      (evaluatorCoeff rs u i).bind fun v => (log rs v).bind fun e => put (tt + 1) z i e) rs.z =
      some (forUp 1 (rs.l u + 1) (fun i z => Function.update z i (rs.log (rs.evaluatorCoeff u i))) rs.z) := by
    refine forUpM_rule (fun _ _ => True) trivial fun i z h1 hi _ => ⟨?_, trivial⟩
    have he' : ∀ j ≤ i, Idx (rs.elp u j) := fun j hj => he j (by omega)
    have hsym := (evaluatorCoeff_spec alpha_root ht hs h1 (by omega) he').1
    rw [evaluatorCoeff_eq hu h1 (by omega) (fun n h1 h8 => (hs n h1 h8).1) he', Option.bind_some, log_eq rs hsym,
      Option.bind_some, put_cast (by omega)]
  unfold formEvaluator
  simp only [Option.bind_eq_bind]
  rw [get_cast (by omega), Option.bind_some]
  exact congrArg (Option.bind · _) hloop

theorem toPolynomial_eq (hr : ∀ j < 31, Idx (rs.recd j)) :
    toPolynomial rs = some (ReedSolomon.toPolynomial rs) := by
  have hloop : forUpM 0 nn (fun i recd => (get nn recd i).bind fun r => (polyForm rs r).bind fun v => put nn recd i v)
      rs.recd = some (forUp 0 nn (fun i recd =>
        Function.update recd i (if recd i ≠ -1 then rs.alpha_to (recd i).toNat else 0)) rs.recd) := by
    refine forUpM_rule (fun i (recd : ℕ → ℤ) => ∀ j, i ≤ j → recd j = rs.recd j)
      (fun _ _ => rfl) fun i recd _ hi h => ?_
    have hcell := h i le_rfl
    rw [get_cast hi, Option.bind_some, hcell, polyForm_eq rs (hr i hi), Option.bind_some, put_cast hi]
    exact ⟨rfl, fun j hj => (Function.update_of_ne (by omega) _ _).trans (h j (by omega))⟩
  exact congrArg (Option.bind · _) hloop

theorem numerator_eq {lu i : ℕ} (hlu : lu ≤ 4) (hi : i < 4) (hz : ∀ j, 1 ≤ j → j ≤ lu → Idx (rs.z j)) :
    numerator rs lu i = some (rs.numerator lu i) := by
  have htt : tt = 4 := rfl
  refine forUpM_rule (fun _ _ => True) trivial fun j v h1 hj _ => ⟨?_, trivial⟩
  have hidx := (hz j h1 (by omega)).1
  simp only [Option.bind_eq_bind, Option.pure_def]
  rw [get_cast (by omega), Option.bind_some]
  by_cases h0 : rs.z j = -1
  · rw [if_neg (not_not.2 h0), if_neg (not_not.2 h0)]
  · have hpos : (0 : ℤ) ≤ (j * rs.root i : ℕ) := Int.natCast_nonneg _
    rw [if_pos h0, if_pos h0, get_cast (by omega), Option.bind_some, exp_eq rs (by omega), Option.bind_some]

theorem denominator_eq (ht : Tables rs) {lu i : ℕ} (hlu : lu ≤ 4) (hi : i < 4) :
    denominator rs lu i = some (rs.denominator lu i) := by
  have htt : tt = 4 := rfl
  refine forUpM_rule (fun _ _ => True) trivial fun j q _ hj _ => ⟨?_, trivial⟩
  simp only [Option.bind_eq_bind, Option.pure_def]
  by_cases hji : j = i
  · rw [if_neg (not_not.2 hji), if_neg (not_not.2 hji)]
  · have hpos : (0 : ℤ) ≤ (rs.loc j + rs.root i : ℕ) := Int.natCast_nonneg _
    rw [if_pos hji, if_pos hji, get_cast (by omega), Option.bind_some, get_cast (by omega), Option.bind_some,
      exp_eq rs hpos, Option.bind_some, log_eq rs (sym_one.xor (ht.exp_sym hpos)), Option.bind_some]

theorem correctOne_eq (ht : Tables rs) {lu i : ℕ} (hlu : lu ≤ 4) (hi : i < 4) (hz : ∀ j, 1 ≤ j → j ≤ lu → Idx (rs.z j))
    (hloc : rs.loc i < nn) : correctOne lu i rs = some (ReedSolomon.correctOne lu i rs) := by
  have htt : tt = 4 := rfl
  have hnn : (nn : ℤ) = 31 := rfl
  have hsym := (numerator_spec alpha_root ht hz i).1
  unfold correctOne ReedSolomon.correctOne
  simp only [Option.bind_eq_bind, Option.pure_def]
  rw [get_cast (by omega), Option.bind_some, numerator_eq hlu hi hz, Option.bind_some]
  by_cases h0 : rs.numerator lu i = 0
  · rw [if_neg (not_not.2 h0), if_neg (not_not.2 h0), put_cast hloc, Option.bind_some]
  · have hlog := ht.log_nonneg hsym h0
    have hmod := Int.tmod_lt_of_pos (rs.denominator lu i) (show (0 : ℤ) < nn by decide)
    rw [if_pos h0, if_pos h0, denominator_eq ht hlu hi, Option.bind_some, log_eq rs hsym, Option.bind_some,
      exp_eq rs (by omega), Option.bind_some, put_cast hloc, Option.bind_some, get_cast hloc, Option.bind_some,
      put_cast hloc, Option.bind_some]

theorem correctErrors_eq {E : Finset ℕ} {y : ℕ → GaloisField 2 5} {u : ℕ} (hu : u ≤ 9) (h : Located alpha E y u rs)
    (hcard : E.card ≤ 4) (hr : ∀ j < 31, Idx (rs.recd j)) :
    correctErrors u rs = some (ReedSolomon.correctErrors u rs) := by
  have hn : nn - kk = 8 := rfl
  have herr : forUpM 0 nn (fun i err => put nn err i 0) rs.err =
      some (forUp 0 nn (fun i err => Function.update err i 0) rs.err) :=
    forUpM_rule (fun _ _ => True) trivial fun i err _ hi _ => ⟨put_cast hi err 0, trivial⟩
  unfold correctErrors ReedSolomon.correctErrors
  simp only [Option.bind_eq_bind]
  rw [herr, Option.bind_some, get_cast (by omega), Option.bind_some]
  generalize forUp 0 nn (fun i err => Function.update err i 0) rs.err = err0
  have hpoly : toPolynomial { rs with err := err0 } = some (ReedSolomon.toPolynomial { rs with err := err0 }) :=
    toPolynomial_eq hr
  have hframe : ∃ err recd, ReedSolomon.toPolynomial { rs with err := err0 } = { rs with err := err, recd := recd } :=
    ⟨_, _, rfl⟩
  rw [hpoly, Option.bind_some]
  generalize ReedSolomon.toPolynomial { rs with err := err0 } = r0 at hframe
  refine forUpM_rule (fun _ r => ∃ err recd, r = { rs with err := err, recd := recd }) hframe ?_
  rintro i _ - hi ⟨err, recd, rfl⟩
  have hlu : rs.l u = E.card := h.len
  have hi4 : i < 4 := by omega
  have hz : ∀ j, 1 ≤ j → j ≤ rs.l u → Idx (rs.z j) := fun j h1 h2 => (h.z j h1 (by omega)).1
  have hloc : rs.loc i < nn := h.pos _ (h.loc_mem i (by omega))
  have htr : Tables { rs with err := err, recd := recd } := h.tables.of_eq rfl rfl
  constructor
  · exact correctOne_eq htr (by omega) hi4 hz hloc
  · unfold ReedSolomon.correctOne
    simp only
    split <;> exact ⟨_, _, rfl⟩

end Correction

/-! ## The whole of `Decode` -/

section Decode

variable {rs : ReedSolomon} {w : ℕ → ℤ}

/-- The outcome of `findLocator`: the unchecked one, except on the syndromes that vanish up to the last. -/
theorem findLocator_eq {S : ℕ → GaloisField 2 5} (ht : Tables rs) (hs : Syndromes alpha S rs) (hS : ¬ LastOnly S) :
    findLocator rs = some (ReedSolomon.findLocator rs) := by
  obtain ⟨hr, hn⟩ := initTable_rows ht hs
  have hl : (ReedSolomon.initTable rs).l 1 ≤ 4 := by simp [ReedSolomon.initTable]
  unfold findLocator
  rw [initTable_eq, Option.bind_eq_bind, Option.bind_some, Option.bind_eq_bind,
    show nn - kk = 8 from rfl, berlekamp_eq hS 8 0 _ rfl hr (fun _ => hn) hl]
  rfl

theorem findLocator_none {S : ℕ → GaloisField 2 5} (ht : Tables rs) (hs : Syndromes alpha S rs) (hS : LastOnly S)
    (hx : ∀ q, 1 ≤ q → q ≤ 8 → ∃ x, Sym x ∧ rs.s q = rs.log x) : findLocator rs = none := by
  obtain ⟨hr, hn⟩ := initTable_rows ht hs
  unfold findLocator
  rw [initTable_eq, Option.bind_eq_bind, Option.bind_some, Option.bind_eq_bind, show nn - kk = 8 from rfl,
    berlekamp_none hS 7 0 _ rfl hr hn (initTable_quiet rs) hx]
  rfl

/-- The phases after a search that found as many roots as the locator has. -/
theorem corrected_eq {S : ℕ → GaloisField 2 5} (h : Rows alpha S 9 rs) (hl : rs.l 9 ≤ 4)
    (hcount : (ReedSolomon.findRoots 9 rs).1 = (ReedSolomon.findRoots 9 rs).2.l 9) (hr : ∀ j < 31, Idx (rs.recd j)) :
    (formEvaluator 9 (ReedSolomon.findRoots 9 rs).2).bind (correctErrors 9) =
      some (ReedSolomon.correctErrors 9 (ReedSolomon.formEvaluator 9 (ReedSolomon.findRoots 9 rs).2)) := by
  obtain ⟨E, y, -, hcard, -, hloc⟩ := exists_located alpha_root h hl hcount
  obtain ⟨help, -⟩ := findRoots_spec alpha_root h.tables h.last
  obtain ⟨elp, reg, root, loc, hframe⟩ := findRoots_frame 9 rs
  generalize (ReedSolomon.findRoots 9 rs).2 = r at help hframe hloc
  have hlr : r.l 9 = rs.l 9 := by rw [hframe]
  have hidx : ∀ j ≤ r.l 9, Idx (r.elp 9 j) := fun j hj => by
    rw [help j (hlr ▸ hj)]
    exact h.tables.log_idx (h.last j (hlr ▸ hj))
  have htr : Tables r := by rw [hframe]; exact h.tables.of_eq rfl rfl
  have hsr : Syndromes alpha S r := by rw [hframe]; exact h.syn
  have hrecd : (ReedSolomon.formEvaluator 9 r).recd = rs.recd := by rw [hframe]; rfl
  rw [formEvaluator_eq htr hsr le_rfl (by rw [hlr]; exact hl) hidx, Option.bind_some]
  exact correctErrors_eq le_rfl hloc hcard fun j hj => by rw [hrecd]; exact hr j hj

/-- On a word whose only syndrome is the last one the decoder leaves `elp`; on every other word it is `Decode`. -/
theorem decode_eq {rs : ReedSolomon} {w : ℕ → ℤ} (h : Constructed rs) (hw : Received rs w) :
    (LastOnly (valueAt w) → Decode rs = none) ∧
      (¬ LastOnly (valueAt w) → Decode rs = some (ReedSolomon.Decode rs)) := by
  have ht := h.tables
  have hidx : ∀ j < 31, Idx (rs.recd j) := fun j hj => (hw.idx ht hj).1
  obtain ⟨hflag, s, hframe, hval⟩ := syndromes_spec rs
  have hsyn := hw.syndromes ht
  have hsym : ∀ q, Sym (rs.syndrome q) := fun q => (hw.syndrome ht q).1
  have hnn : nn - kk + 2 = 10 := rfl
  have htt : tt = 4 := rfl
  unfold Decode
  rw [syndromes_eq ht hidx, Option.bind_eq_bind, Option.bind_some]
  rcases hs : ReedSolomon.syndromes rs with ⟨flag, r⟩
  rw [hs] at hflag hframe hsyn
  simp only at hflag hframe hsyn
  have htr : Tables r := by rw [hframe]; exact ht.of_eq rfl rfl
  have hrecd : r.recd = rs.recd := by rw [hframe]
  have hx : ∀ q, 1 ≤ q → q ≤ 8 → ∃ x, Sym x ∧ r.s q = r.log x := fun q h1 h8 => by
    rw [hframe]
    exact ⟨_, hsym q, hval q h1 h8⟩
  cases flag with
  | false =>
    have hzero : ∀ n, 1 ≤ n → n ≤ 8 → rs.syndrome n = 0 := fun n h1 h8 => by
      by_contra hne
      exact absurd (hflag.2 ⟨n, h1, h8, hne⟩) (by simp)
    have hS : ¬ LastOnly (valueAt w) := fun hS =>
      hS.2 ((hw.syndrome_eq_zero ht 8).1 (hzero 8 (by omega) le_rfl))
    refine ⟨fun h => absurd h hS, fun _ => ?_⟩
    rw [decode_clean hs]
    exact toPolynomial_eq fun j hj => by rw [hrecd]; exact hidx j hj
  | true =>
    refine ⟨fun hS => ?_, fun hS => ?_⟩
    · refine (if_pos rfl).trans ?_
      rw [findLocator_none htr hsyn hS hx]
      rfl
    · refine (if_pos rfl).trans ?_
      rw [findLocator_eq htr hsyn hS, Option.bind_eq_bind, Option.bind_some]
      have hrows := findLocator_rows alpha_root htr hsyn
      obtain ⟨d, elp, l, u_lu, hframe'⟩ := findLocator_frame r
      rcases hf : ReedSolomon.findLocator r with ⟨u, r'⟩
      rw [hf] at hrows hframe'
      simp only at hrows hframe'
      have hidx' : ∀ j < 31, Idx (r'.recd j) := fun j hj => by
        rw [hframe']
        simp only [hrecd]
        exact hidx j hj
      have hu : u ≤ 9 := by
        have hle := berlekamp_le 8 0 (ReedSolomon.initTable r)
        have hfu : (ReedSolomon.findLocator r).1 = u := by rw [hf]
        rw [← hfu]
        exact Nat.succ_le_succ hle
      simp only [Option.bind_eq_bind]
      rw [get_cast (by omega), Option.bind_some]
      by_cases hl : r'.l u ≤ tt
      · obtain ⟨rfl, htable⟩ := hrows hl
        rw [if_pos hl, findRoots_eq htable.tables le_rfl hl htable.last, Option.bind_some]
        have hcorr := corrected_eq htable hl
        obtain ⟨elp', reg, root, loc, hframe''⟩ := findRoots_frame 9 r'
        rcases hr : ReedSolomon.findRoots 9 r' with ⟨count, r''⟩
        rw [hr] at hcorr hframe''
        simp only at hcorr hframe'' ⊢
        have hlr : r''.l 9 = r'.l 9 := by rw [hframe'']
        by_cases hc : count = r'.l 9
        · have hc' : count = r''.l 9 := hc.trans hlr.symm
          rw [if_pos hc, decode_corrected hs hf hl hr hc', hcorr hc' hidx']
        · rw [if_neg hc, decode_roots hs hf hl hr (by rwa [hlr])]
          exact toPolynomial_eq fun j hj => by rw [hframe'']; exact hidx' j hj
      · rw [if_neg hl, decode_degree hs hf hl]
        exact toPolynomial_eq hidx'

/-- Every access is inside its array exactly when it is not the case that the word vanishes at `α, ..., α^7` and not at
`α^8`; the run is then that of `Decode`. -/
theorem decode_in_bounds_iff {rs : ReedSolomon} {w : ℕ → ℤ} (h : Constructed rs) (hw : Received rs w) :
    ((Decode rs).isSome ↔ ¬ ((∀ m, 1 ≤ m → m < 8 → valueAt w m = 0) ∧ valueAt w 8 ≠ 0)) ∧
      ∀ r, Decode rs = some r → r = ReedSolomon.Decode rs := by
  obtain ⟨hnone, hsome⟩ := decode_eq h hw
  refine ⟨⟨fun hs hS => ?_, fun hS => ?_⟩, fun r hr => ?_⟩
  · rw [hnone hS] at hs
    exact absurd hs (by simp)
  · rw [hsome hS]
    rfl
  · by_cases hS : LastOnly (valueAt w)
    · rw [hnone hS] at hr
      exact absurd hr (by simp)
    · rw [hsome hS] at hr
      exact (Option.some.inj hr).symm

/-- The logarithms of the product of the factors `X + α^i`, `1 ≤ i ≤ 7`: one short of the generator. -/
def ninthCellIdx (j : ℕ) : ℤ := [28, 25, 10, 9, 5, 29, 5, 0].getD j (-1)

def ninthCell : ReedSolomon := { new default with recd := ninthCellIdx }

theorem ninthCell_received : Received ninthCell (ofLogs ninthCellIdx) :=
  ofLogs_received (by decide) ((tables_new default).of_eq rfl rfl) fun _ _ => rfl

/-- The last round writes to `elp[9][8]`. -/
theorem decode_leaves_elp : (∀ j < 31, Sym (ofLogs ninthCellIdx j)) ∧
    (∀ j < 31, ninthCell.recd j = ninthCell.log (ofLogs ninthCellIdx j)) ∧ Decode ninthCell = none := by
  refine ⟨ninthCell_received.sym, ninthCell_received.recd, ?_⟩
  have hidx : ∀ j < 31, Idx (ninthCellIdx j) := by decide
  have hzero : ∀ m < 8, m ≠ 0 → tableSyndrome ninthCellIdx m = 0 := by decide +kernel
  have hlast : tableSyndrome ninthCellIdx 8 ≠ 0 := by decide +kernel
  have hc : Constructed ninthCell := constructed_new default
  refine (decode_eq hc ninthCell_received).1 ⟨fun m h1 h8 => ?_, fun h => ?_⟩
  · exact (valueAt_ofLogs hidx m).2 (hzero m h8 (by omega))
  · exact hlast ((valueAt_ofLogs hidx 8).1 h)

/-- The logarithms of a word with one symbol that is not zero. -/
def oneSymbolIdx (j : ℕ) : ℤ := if j = 3 then 10 else -1

def oneSymbol : ReedSolomon := { new default with recd := oneSymbolIdx }

theorem decode_in_bounds_iff_oneSymbol : (Decode oneSymbol).isSome := by
  have hidx : ∀ j < 31, Idx (oneSymbolIdx j) := by decide
  have hc : Constructed oneSymbol := constructed_new default
  have hw : Received oneSymbol (ofLogs oneSymbolIdx) := ofLogs_received hidx hc.tables fun _ _ => rfl
  have hfirst : tableSyndrome oneSymbolIdx 1 ≠ 0 := by decide +kernel
  refine (decode_in_bounds_iff hc hw).1.2 fun hS => hfirst ?_
  exact (valueAt_ofLogs hidx 1).1 (hS.1 1 le_rfl (by omega))

end Decode

end Checked

end ReedSolomon

end Undertone

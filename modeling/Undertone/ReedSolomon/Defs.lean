import Mathlib.Data.Int.Bitwise
import Undertone.Lib.Loop

/-!
# The codec: `ReedSolomon.cpp`

The arrays of the class are total functions on their indices, so a run never stops at the end of an allocation; the
scratch arrays keep whatever earlier calls left in them. A symbol is stored in one of two forms, and several arrays
change form in place: polynomial form (the bits of the symbol, `0..31`) and index form (its discrete logarithm,
`-1..30`, with `-1` for the symbol `0`).
-/

namespace Undertone

open CountedLoop

/-- The state of a `ReedSolomon` object; `pp`, `mm`, `nn`, `tt` and `kk` never change and are constants below. -/
structure ReedSolomon where
  msg_len : ℕ
  alpha_to : ℕ → ℤ
  index_of : ℕ → ℤ
  gg : ℕ → ℤ
  recd : ℕ → ℤ
  data : ℕ → ℤ
  bb : ℕ → ℤ
  elp : ℕ → ℕ → ℤ
  d : ℕ → ℤ
  l : ℕ → ℕ
  u_lu : ℕ → ℤ
  s : ℕ → ℤ
  root : ℕ → ℕ
  loc : ℕ → ℕ
  z : ℕ → ℤ
  err : ℕ → ℤ
  reg : ℕ → ℤ
  deriving Inhabited

namespace ReedSolomon

def mm : ℕ := 5
/-- Length of the full code. -/
def nn : ℕ := 2 ^ mm - 1
/-- Number of errors that can be corrected. -/
def tt : ℕ := 4
def kk : ℕ := nn - 2 * tt

/-- The coefficients of `1 + x² + x⁵`. -/
def pp (i : ℕ) : ℤ := if i = 0 ∨ i = 2 ∨ i = 5 then 1 else 0

/-- `alpha_to[e % nn]` -/
def exp (rs : ReedSolomon) (e : ℤ) : ℤ := rs.alpha_to (e.tmod nn).toNat

/-- `index_of[x]` -/
def log (rs : ReedSolomon) (x : ℤ) : ℤ := rs.index_of x.toNat

/-! ## Construction -/

/-- The loop that generates `1, α, ..., α^(mm-1)` and sums the taps of `pp` into `alpha_to[mm]`. -/
def galoisLow (st : ℤ × (ℕ → ℤ) × (ℕ → ℤ)) : ℤ × (ℕ → ℤ) × (ℕ → ℤ) :=
  forUp 0 mm (fun i (mask, alpha_to, index_of) =>
    let alpha_to := Function.update alpha_to i mask
    let index_of := Function.update index_of (alpha_to i).toNat (i : ℤ)
    let alpha_to := if pp i ≠ 0 then Function.update alpha_to mm (Int.xor (alpha_to mm) mask) else alpha_to
    (mask * 2, alpha_to, index_of)) st

/-- One step of the feedback register: the symbol after `x`, with `tap = alpha_to[mm]`. -/
def galoisNext (mask tap x : ℤ) : ℤ := if x ≥ mask then Int.xor tap (Int.xor x mask * 2) else x * 2

/-- The loop that generates the remaining powers of `α`. -/
def galoisHigh (mask : ℤ) (st : (ℕ → ℤ) × (ℕ → ℤ)) : (ℕ → ℤ) × (ℕ → ℤ) :=
  forUp (mm + 1) nn (fun i (alpha_to, index_of) =>
    let alpha_to := Function.update alpha_to i (galoisNext mask (alpha_to mm) (alpha_to (i - 1)))
    (alpha_to, Function.update index_of (alpha_to i).toNat (i : ℤ))) st

def GenerateGaloisField (rs : ReedSolomon) : ReedSolomon :=
  let (mask, alpha_to, index_of) := galoisLow (1, Function.update rs.alpha_to mm 0, rs.index_of)
  let index_of := Function.update index_of (alpha_to mm).toNat (mm : ℤ)
  let (alpha_to, index_of) := galoisHigh (mask / 2) (alpha_to, index_of)
  { rs with alpha_to := alpha_to, index_of := Function.update index_of 0 (-1) }

/-- Multiply the polynomial in `gg[0..i-1]` by `X + α^i`, in place. -/
def polyRound (rs : ReedSolomon) (i : ℕ) (gg : ℕ → ℤ) : ℕ → ℤ :=
  let gg := Function.update gg i 1
  let gg := forDown 1 i (fun j gg =>
    if gg j ≠ 0 then Function.update gg j (Int.xor (gg (j - 1)) (rs.exp (rs.log (gg j) + i)))
    else Function.update gg j (gg (j - 1))) gg
  Function.update gg 0 (rs.exp (rs.log (gg 0) + i))

def GeneratePoly (rs : ReedSolomon) : ReedSolomon :=
  let gg := Function.update (Function.update rs.gg 0 2) 1 1
  let gg := forUp 2 (nn - kk + 1) (polyRound rs) gg
  let gg := forUp 0 (nn - kk + 1) (fun i gg => Function.update gg i (rs.log (gg i))) gg
  { rs with gg := gg }

/-- The constructor, run on arrays that `new` left uninitialised. -/
def new (mem : ReedSolomon) : ReedSolomon := GeneratePoly (GenerateGaloisField { mem with msg_len := 12 })

/-! ## Encoding -/

/-- One round of the feedback shift register. -/
def shiftRegister (rs : ReedSolomon) (i : ℕ) (bb : ℕ → ℤ) : ℕ → ℤ :=
  let feedback := rs.log (Int.xor (rs.data i) (bb (nn - kk - 1)))
  if feedback ≠ -1 then
    let bb := forDown 1 (nn - kk) (fun j bb =>
      if rs.gg j ≠ -1 then Function.update bb j (Int.xor (bb (j - 1)) (rs.exp (rs.gg j + feedback)))
      else Function.update bb j (bb (j - 1))) bb
    Function.update bb 0 (rs.exp (rs.gg 0 + feedback))
  else
    let bb := forDown 1 (nn - kk) (fun j bb => Function.update bb j (bb (j - 1))) bb
    Function.update bb 0 0

def Encode (rs : ReedSolomon) : ReedSolomon :=
  let bb := forUp 0 (nn - kk) (fun i bb => Function.update bb i 0) rs.bb
  { rs with bb := forDown 0 kk (shiftRegister rs) bb }

/-! ## Decoding -/

/-- The value of `rec(X)` at `α^i`, in polynomial form. -/
def syndrome (rs : ReedSolomon) (i : ℕ) : ℤ :=
  forUp 0 nn (fun j v => if rs.recd j ≠ -1 then Int.xor v (rs.exp (rs.recd j + i * j)) else v) 0

/-- Form the syndromes, in index form; the flag is `syn_error`. -/
def syndromes (rs : ReedSolomon) : Bool × ReedSolomon :=
  let (syn_error, s) := forUp 1 (nn - kk + 1) (fun i (syn_error, s) =>
    (syn_error || decide (rs.syndrome i ≠ 0), Function.update s i (rs.log (rs.syndrome i)))) (false, rs.s)
  (syn_error, { rs with s := s })

/-- The table entries for the steps `-1` and `0` of the Berlekamp iteration. -/
def initTable (rs : ReedSolomon) : ReedSolomon :=
  { rs with
    d := Function.update (Function.update rs.d 0 0) 1 (rs.s 1)
    elp := forUp 1 (nn - kk) (fun i elp => set2 (set2 elp 0 i (-1)) 1 i 0) (set2 (set2 rs.elp 0 0 0) 1 0 1)
    l := Function.update (Function.update rs.l 0 0) 1 0
    u_lu := Function.update (Function.update rs.u_lu 0 (-1)) 1 0 }

/-- `while ((d[q]==-1) && (q>0)) q--` -/
def lastNonzero (d : ℕ → ℤ) : ℕ → ℕ
  | 0 => 0
  | q + 1 => if d (q + 1) = -1 then lastNonzero d q else q + 1

/-- The row with `d[q] != 0` and the greatest `u_lu[q]` among those before `u`. -/
def selectRow (rs : ReedSolomon) (u : ℕ) : ℕ :=
  let q := lastNonzero rs.d (u - 1)
  if q > 0 then forDown 0 q (fun j q => if rs.d j ≠ -1 ∧ rs.u_lu q < rs.u_lu j then j else q) q else q

/-- The next row of the table when the discrepancy `d[u]` vanishes. -/
def copyRow (u : ℕ) (rs : ReedSolomon) : ReedSolomon :=
  { rs with
    l := Function.update rs.l (u + 1) (rs.l u)
    elp := forUp 0 (rs.l u + 1) (fun i elp =>
      let elp := set2 elp (u + 1) i (elp u i)
      set2 elp u i (rs.log (elp u i))) rs.elp }

/-- The next row of the table when `d[u]` does not vanish: row `u` plus a multiple of the shifted row `q`. -/
def combineRow (u q : ℕ) (rs : ReedSolomon) : ReedSolomon :=
  let elp := forUp 0 (nn - kk) (fun i elp => set2 elp (u + 1) i 0) rs.elp
  let elp := forUp 0 (rs.l q + 1) (fun i elp =>
    if elp q i ≠ -1 then set2 elp (u + 1) (i + u - q) (rs.exp (rs.d u + nn - rs.d q + elp q i)) else elp) elp
  let elp := forUp 0 (rs.l u + 1) (fun i elp =>
    let elp := set2 elp (u + 1) i (Int.xor (elp (u + 1) i) (elp u i))
    set2 elp u i (rs.log (elp u i))) elp
  { rs with
    l := Function.update rs.l (u + 1) (if rs.l u > rs.l q + u - q then rs.l u else rs.l q + u - q)
    elp := elp }

/-- The discrepancy of row `u`, in polynomial form. -/
def discrepancy (rs : ReedSolomon) (u : ℕ) : ℤ :=
  let v := if rs.s u ≠ -1 then rs.alpha_to (rs.s u).toNat else 0
  forUp 1 (rs.l u + 1) (fun i v =>
    if rs.s (u - i) ≠ -1 ∧ rs.elp u i ≠ 0 then Int.xor v (rs.exp (rs.s (u - i) + rs.log (rs.elp u i))) else v) v

/-- The body of the Berlekamp loop, after `u++`. -/
def berlekampStep (u : ℕ) (rs : ReedSolomon) : ReedSolomon :=
  let rs := if rs.d u = -1 then copyRow u rs else combineRow u (selectRow rs u) rs
  let rs := { rs with u_lu := Function.update rs.u_lu (u + 1) ((u : ℤ) - rs.l (u + 1)) }
  -- no discrepancy is computed on the last iteration
  if u < nn - kk then { rs with d := Function.update rs.d (u + 1) (rs.log (rs.discrepancy (u + 1))) } else rs

/-- `do { u++; ... } while ((u < nn-kk) && (l[u+1] <= tt))`, which stops after `nn - kk` rounds at the latest. -/
def berlekamp : ℕ → ℕ → ReedSolomon → ℕ × ReedSolomon
  | 0, u, rs => (u, rs)
  | n + 1, u, rs =>
    let rs := berlekampStep (u + 1) rs
    if u + 1 < nn - kk ∧ rs.l (u + 2) ≤ tt then berlekamp n (u + 1) rs else (u + 1, rs)

/-- One round of the root search: multiply every term by its power of `α` and sum. -/
def searchRound (rs : ReedSolomon) (lu : ℕ) (reg : ℕ → ℤ) : ℤ × (ℕ → ℤ) :=
  forUp 1 (lu + 1) (fun j (q, reg) =>
    if reg j ≠ -1 then
      let reg := Function.update reg j ((reg j + j).tmod nn)
      (Int.xor q (rs.alpha_to (reg j).toNat), reg)
    else (q, reg)) (1, reg)

/-- Put `elp[u]` into index form and find its roots; the result is the number of roots. -/
def findRoots (u : ℕ) (rs : ReedSolomon) : ℕ × ReedSolomon :=
  let rs := { rs with elp := forUp 0 (rs.l u + 1) (fun i elp => set2 elp u i (rs.log (elp u i))) rs.elp }
  let reg := forUp 1 (rs.l u + 1) (fun i reg => Function.update reg i (rs.elp u i)) rs.reg
  let (count, reg, root, loc) := forUp 1 (nn + 1) (fun i (count, reg, root, loc) =>
    let (q, reg) := searchRound rs (rs.l u) reg
    if q = 0 then (count + 1, reg, Function.update root count i, Function.update loc count (nn - i))
    else (count, reg, root, loc)) (0, reg, rs.root, rs.loc)
  (count, { rs with reg := reg, root := root, loc := loc })

/-- The coefficient of `x^i` in the evaluator polynomial `z(x)`, in polynomial form. -/
def evaluatorCoeff (rs : ReedSolomon) (u i : ℕ) : ℤ :=
  let v :=
    if rs.s i ≠ -1 ∧ rs.elp u i ≠ -1 then
      Int.xor (rs.alpha_to (rs.s i).toNat) (rs.alpha_to (rs.elp u i).toNat)
    else if rs.s i ≠ -1 ∧ rs.elp u i = -1 then rs.alpha_to (rs.s i).toNat
    else if rs.s i = -1 ∧ rs.elp u i ≠ -1 then rs.alpha_to (rs.elp u i).toNat
    else 0
  forUp 1 i (fun j v =>
    if rs.s j ≠ -1 ∧ rs.elp u (i - j) ≠ -1 then Int.xor v (rs.exp (rs.elp u (i - j) + rs.s j)) else v) v

/-- Form the evaluator polynomial, in index form; `z[0] = 1` is left out. -/
def formEvaluator (u : ℕ) (rs : ReedSolomon) : ReedSolomon :=
  { rs with z := forUp 1 (rs.l u + 1) (fun i z => Function.update z i (rs.log (rs.evaluatorCoeff u i))) rs.z }

/-- Convert `recd` to polynomial form. -/
def toPolynomial (rs : ReedSolomon) : ReedSolomon :=
  { rs with recd := forUp 0 nn (fun i recd =>
      Function.update recd i (if recd i ≠ -1 then rs.alpha_to (recd i).toNat else 0)) rs.recd }

/-- The numerator of the error term at the `i`-th location, in polynomial form. -/
def numerator (rs : ReedSolomon) (lu i : ℕ) : ℤ :=
  forUp 1 (lu + 1) (fun j v =>
    if rs.z j ≠ -1 then Int.xor v (rs.exp (rs.z j + (j * rs.root i : ℕ))) else v) 1

/-- The logarithm of the denominator of the error term at the `i`-th location, before the final `% nn`. -/
def denominator (rs : ReedSolomon) (lu i : ℕ) : ℤ :=
  forUp 0 lu (fun j q =>
    if j ≠ i then q + rs.log (Int.xor 1 (rs.exp (rs.loc j + rs.root i : ℕ))) else q) 0

/-- Evaluate the error at the `i`-th location and correct it. -/
def correctOne (lu i : ℕ) (rs : ReedSolomon) : ReedSolomon :=
  let v := rs.numerator lu i
  if v ≠ 0 then
    let e := rs.exp (rs.log v - (rs.denominator lu i).tmod nn + nn)
    { rs with
      err := Function.update rs.err (rs.loc i) e
      recd := Function.update rs.recd (rs.loc i) (Int.xor (rs.recd (rs.loc i)) e) }
  else { rs with err := Function.update rs.err (rs.loc i) v }

/-- Evaluate errors at the locations in `loc` and correct them. -/
def correctErrors (u : ℕ) (rs : ReedSolomon) : ReedSolomon :=
  let rs := { rs with err := forUp 0 nn (fun i err => Function.update err i 0) rs.err }
  forUp 0 (rs.l u) (correctOne (rs.l u)) (toPolynomial rs)

/-- The Berlekamp iteration on the syndromes in `s`: the row of the error locator and the table. -/
def findLocator (rs : ReedSolomon) : ℕ × ReedSolomon :=
  let (u, rs) := berlekamp (nn - kk) 0 (initTable rs)
  (u + 1, rs)

def Decode (rs : ReedSolomon) : ReedSolomon :=
  let (syn_error, rs) := syndromes rs
  if syn_error then
    let (u, rs) := findLocator rs
    if rs.l u ≤ tt then
      let (count, rs) := findRoots u rs
      if count = rs.l u then correctErrors u (formEvaluator u rs)
      else toPolynomial rs  -- more than `tt` errors: just output the received codeword as is
    else toPolynomial rs  -- the locator has degree above `tt`: cannot solve
  else toPolynomial rs  -- no errors: output the received codeword

/-! ## Messages -/

def SetMessage (message : List ℤ) (rs : ReedSolomon) : ReedSolomon :=
  let msg_len := message.length
  let data := forUp 0 msg_len (fun i data => Function.update data i (message.getD i 0)) rs.data
  -- pad with zeros for the shortened code
  let data := if msg_len < kk then forUp msg_len kk (fun i data => Function.update data i 0) data else data
  { rs with msg_len := msg_len, data := data }

def GetCode (rs : ReedSolomon) : List ℤ :=
  (List.range rs.msg_len).map rs.data ++ (List.range (nn - kk)).map rs.bb

/-- `none` where a read of `code` runs past its end. -/
def SetCode (code : List ℤ) (rs : ReedSolomon) : Option ReedSolomon :=
  if code.length < kk ∧ rs.msg_len < kk then
    if code.length < rs.msg_len + (nn - kk) then none
    else
      let recd := forUp 0 (nn - kk) (fun i recd => Function.update recd i (code.getD (rs.msg_len + i) 0)) rs.recd
      let recd := forUp 0 rs.msg_len (fun i recd => Function.update recd (nn - kk + i) (code.getD i 0)) recd
      let recd := forUp (rs.msg_len + (nn - kk)) nn (fun i recd => Function.update recd i 0) recd
      some { rs with recd := forUp 0 nn (fun i recd => Function.update recd i (rs.log (recd i))) recd }
  else some rs

def GetMessage (rs : ReedSolomon) : List ℤ := (List.range rs.msg_len).map fun i => rs.recd (nn - kk + i)

end ReedSolomon

end Undertone

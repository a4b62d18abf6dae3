import Undertone.Globals
import Undertone.Lib.Bounded
import Mathlib.Analysis.SpecialFunctions.Exp

/-!
# `Mixer.cpp`

The mixer of the program and the undertone: the energy of the program in windows, the levels that follow from it, and
the mix in its three modes. Every access to a vector or a buffer is compared with its length: a call with an access
outside has no outcome. What is only printed is left out.
-/

namespace Undertone

open CountedLoop BoundedArray Globals

/-- The functions of the C library that only the mixer calls. -/
class Mixing (F : Type) (D : outParam Type) [Doubles D] [Floats F D] where
  cos : D → D
  lt : D → D → Bool
  exp : F → F
  log10f : F → F
  floor : F → F

noncomputable instance : Mixing ℝ ℝ where
  cos := Real.cos
  lt x y := decide (x < y)
  exp := Real.exp
  log10f := Real.logb ((10 : ℕ) : ℝ)
  floor x := ⌊x⌋

structure Mixer (F : Type) where
  mDefaultUndertoneLevel : F
  mDefaultProgramLevel : F
  mSmoothTime : F
  mMinUndertoneLevel : F
  mMode : ℤ
  mUseNormalize : Bool

namespace Mixer

variable {F D : Type} [Doubles D] [Floats F D]

def kDefaultMode : ℤ := 0
def kGlobalLevelMode : ℤ := 1
def kDynamicLevelMode : ℤ := 2

/-- `std::min` -/
def stdMin (x y : F) : F := if Floats.lt y x then y else x

/-- `std::max` -/
def stdMax (x y : F) : F := if Floats.lt x y then y else x

/-! ## The energy in windows -/

section Energy

variable [Mixing F D]

/-- `hanning(n, w)`: the weights, and their sum, which is returned. -/
def hanning (n : ℕ) : List F × F :=
  forUp 0 n (fun i (w, area) =>
    let v := Floats.ofDouble (Doubles.lit 0.5 * (Doubles.lit 1 -
      Mixing.cos F (Doubles.lit 2 * Doubles.lit 3.14159265358979323846264338327950288 * Doubles.lit i /
        Doubles.lit ((n : ℚ) - 1))))
    (w ++ [v], area + v)) ([], Floats.lit 0)

/-- The size of the window for the hop size `h`, made even. -/
def ws (h : ℤ) : ℤ := 4 * h - (4 * h).tmod 2

/-- The energy of the `i`-th frame, before it is divided by the area of the window. -/
def windowEnergy (h : ℤ) (w : List F) (buffer : ℕ → F) (nsamples : ℕ) (nFrames : ℤ) (i : ℕ) : Option F :=
  let hws := (ws h).tdiv 2
  let b := h * i - hws
  let e := h * i + hws
  let add := fun (k : ℕ) (en : F) => do
    let x ← get nsamples buffer k
    let y ← read w (k - b)
    return en + x * x * y
  if b < 1 then forUpM 0 (e + 1).toNat add (Floats.lit 0)
  else if e ≥ nsamples then forUpM b.toNat nFrames.toNat add (Floats.lit 0)
  else forUpM b.toNat (e + 1).toNat add (Floats.lit 0)

/-- `computeEnergy` with the hop size `h` and the weights `w` of the window: the timestamps and the energies. -/
def energyFrames (h : ℤ) (w : List F) (area : F) (buffer : ℕ → F) (nsamples : ℕ) (frameTime : F) :
    Option (List F × List F) :=
  if h = 0 then none
  else
    let nFrames := (nsamples : ℤ).tdiv h - 2
    forUpM 0 nFrames.toNat (fun i (timestamps, energy) => do
      let en ← windowEnergy h w buffer nsamples nFrames i
      return (timestamps ++ [ofInt i * frameTime], energy ++ [en / area])) ([], [])

/-- `int(frameTime*samplerate + 0.5)` -/
def hop (samplerate frameTime : F) : ℤ := Doubles.trunc (Floats.toDouble (frameTime * samplerate) + Doubles.lit 0.5)

/-- `computeEnergy(buffer, nsamples, samplerate, frameTime, timestamps, energy)` -/
def computeEnergy (buffer : ℕ → F) (nsamples : ℕ) (samplerate frameTime : F) : Option (List F × List F) :=
  let h := hop samplerate frameTime
  let (w, area) := hanning (ws h + 1).toNat
  energyFrames h w area buffer nsamples frameTime

/-! ## The levels -/

/-- `smooth(v, window, useNonZero)`; the bound `v.size()-1` of the loop is unsigned. -/
def smooth (v : List F) (window : ℤ) (useNonZero : Bool) : Option (List F) :=
  let hw := window.tdiv 2
  let v2 := v
  forUpM 1 (if v.length = 0 then 2 ^ 64 - 1 else v.length - 1) (fun i v => do
    let b := max 0 (i - hw)
    let e := min (v.length - 1 : ℤ) (i + hw)
    let (s, den) ← forUpM b.toNat (e + 1).toNat (fun k (s, den) => do
      let x ← read v2 k
      return (s + x, if Floats.lt (Floats.lit 0) x then den + 1 else den)) (Floats.lit 0, 0)
    if useNonZero then do
      let x ← read v i
      write v i (if Floats.lt (Floats.lit 0) x then s / ofInt den else Floats.lit 0)
    else write v i (if e - b > 0 then s / (ofInt (e - b) + Floats.lit 1) else s)) v

/-- `floor(float(size) * .1f)` -/
def per10Idx (size : ℕ) : ℤ := Doubles.trunc (Floats.toDouble (Mixing.floor (ofInt size * Floats.lit 0.1 : F)))

/-- The stability of a frame, from its energy and those of three neighbours. -/
def stability (p10 : D) (before here next second : F) : F :=
  let rangeDB : D := Doubles.lit 18
  let x := Floats.abs (Floats.ofDouble (Doubles.lit 0.5 * Floats.toDouble (second + next - here - before)) : F)
  let xval := x - Floats.lit 3.25
  let sigmoid := Floats.lit 1 - Floats.lit 1 / (Floats.lit 1 + Mixing.exp (-Floats.lit 1.75 * xval))
  let weight := (Floats.toDouble here - (p10 - Doubles.lit 2 * rangeDB)) / rangeDB
  let least := if Mixing.lt F weight (Doubles.lit 1) then weight else Doubles.lit 1
  Floats.ofDouble (Floats.toDouble sigmoid * if Mixing.lt F (Doubles.lit 0) least then least else Doubles.lit 0)

/-- `computeDynamicsStability(energy, frameTime, energyDB, st, percentile10)`: what it stores in the last three. -/
def computeDynamicsStability (m : Mixer F) (energy : List F) (frameTime : F) : Option (List F × List F × F) := do
  let nFr := energy.length
  let energyDB := energy.map fun x =>
    Floats.lit 10 * Mixing.log10f (Floats.ofDouble (Floats.toDouble x + Doubles.lit (1 / 10 ^ 200)))
  let ew := energyDB.mergeSort fun x y => !Floats.lt y x
  let p10 ← read ew (ew.length - per10Idx (F := F) ew.length)
  let st ← write energyDB 0 (Floats.lit 0)
  let st ← forUpM 1 (nFr - 2) (fun i st => do
    let second ← read energyDB (i + 2)
    let next ← read energyDB (i + 1)
    let here ← read energyDB i
    let before ← read energyDB (i - 1)
    write st i (stability (Floats.toDouble p10) before here next second)) st
  let st ← write st (st.length - 2) (Floats.lit 0)
  let st ← write st (st.length - 1) (Floats.lit 0)
  let st ← forUpM 0 (nFr - 1) (fun i st => do
    let x ← read st i
    write st i (x * x)) st
  let smoothframes := Doubles.trunc (Floats.toDouble (m.mSmoothTime / frameTime))
  let st ← smooth st smoothframes false
  let energyDB ← smooth energyDB smoothframes false
  return (energyDB, st, p10)

/-- The gain for the energy of a frame. -/
def undertoneLevel (m : Mixer F) (energyDB : F) : F :=
  let levelDB := stdMax m.mMinUndertoneLevel
    (stdMin (energyDB + m.mDefaultUndertoneLevel) m.mDefaultUndertoneLevel)
  Floats.pow (Floats.lit 10) (levelDB / Floats.lit 20)

/-- `computeUndertoneLevel(buffer, nsamples, samplerate, timestamps, undertoneLevel, percentile10)`: what it stores in
the last three. -/
def computeUndertoneLevel (m : Mixer F) (buffer : ℕ → F) (nsamples : ℕ) (samplerate : F) :
    Option (List F × List F × F) := do
  let frametime := Floats.lit 512 / samplerate
  let (timestamps, energy) ← computeEnergy buffer nsamples samplerate frametime
  let (energyDB, _, percentile10) ← m.computeDynamicsStability energy frametime
  return (timestamps, energyDB.map m.undertoneLevel, percentile10)

end Energy

/-! ## The mix -/

/-- `MAX(-1.0, MIN(1.0, x))` of the macros. -/
def clip (x : F) : F :=
  let y := if Floats.lt (Floats.lit 1) x || Floats.eq (Floats.lit 1) x then Floats.lit 1 else x
  if Floats.lt y (Floats.lit (-1)) || Floats.eq y (Floats.lit (-1)) then Floats.lit (-1) else y

/-- The arguments of `mix`: `nchannels` buffers of the program, and one of the undertone, of `nsamples` each. -/
structure Buffers (F : Type) where
  bufferPgm : ℕ → ℕ → F
  nsamples : ℕ
  nchannels : ℕ
  samplerate : F
  bufferUndertone : ℕ → F

variable (m : Mixer F) (a : Buffers F)

def defUndertoneLevel : F := Floats.pow (Floats.lit 10) (m.mDefaultUndertoneLevel / Floats.lit 20)

def defPgmLevel : F := Floats.pow (Floats.lit 10) (m.mDefaultProgramLevel / Floats.lit 20)

/-- The sample `i` of all channels, with the gain `level` for the undertone; the state is `bufferMix` and `maxpeak`. -/
def mixSample (level : F) (i : ℕ) (st : (ℕ → ℕ → F) × F) : Option ((ℕ → ℕ → F) × F) :=
  forUpM 0 a.nchannels (fun j (bufferMix, maxpeak) => do
    let u ← get a.nsamples a.bufferUndertone i
    let p ← get2 a.nchannels a.nsamples a.bufferPgm j i
    let x := clip (level * u + m.defPgmLevel * p)
    let bufferMix ← put2 a.nchannels a.nsamples bufferMix j i x
    return (bufferMix, if Floats.lt maxpeak (Floats.abs x) then Floats.abs x else maxpeak)) st

/-- The segment of the sample `i`, from that of the sample before. -/
def segment (timestamps : List F) (ntimestamps : ℤ) (samplerate : F) (i : ℕ) (eidx : ℤ) : Option ℤ := do
  let next ← read timestamps (eidx + 1)
  return min (if Floats.lt next (ofInt i / samplerate) then eidx + 1 else eidx) ntimestamps

/-- The level of the sample `i` in the segment `eidx`. -/
def interpolate (timestamps undertoneLevel : List F) (samplerate : F) (i : ℕ) (eidx : ℤ) : Option F := do
  let t ← read timestamps eidx
  let t' ← read timestamps (eidx + 1)
  let x ← read undertoneLevel eidx
  let x' ← read undertoneLevel (eidx + 1)
  let interp := (ofInt i / samplerate - t) / (t' - t)
  return (Floats.lit 1 - interp) * x + interp * x'

/-- The loop of `kDynamicLevelMode`. -/
def mixDynamic (timestamps undertoneLevel : List F) (bufferMix : ℕ → ℕ → F) : Option ((ℕ → ℕ → F) × F) := do
  let ntimestamps := (undertoneLevel.length : ℤ) - 2
  let (_, st) ← forUpM 0 a.nsamples (fun i (eidx, st) => do
    let eidx ← segment timestamps ntimestamps a.samplerate i eidx
    let level ← interpolate timestamps undertoneLevel a.samplerate i eidx
    let st ← m.mixSample a level i st
    return (eidx, st)) ((0 : ℤ), bufferMix, Floats.lit 0)
  return st

/-- The loops of the other two modes. -/
def mixGlobal (level : F) (bufferMix : ℕ → ℕ → F) : Option ((ℕ → ℕ → F) × F) :=
  forUpM 0 a.nsamples (fun i st => m.mixSample a level i st) (bufferMix, Floats.lit 0)

/-- The gain of `kGlobalLevelMode`. -/
def globalUndertoneLevel (percentile10 : F) : F :=
  let minlevelLin := Floats.pow (Floats.lit 10) (m.mMinUndertoneLevel / Floats.lit 20)
  let globalLevelDB := percentile10 + m.mDefaultUndertoneLevel
  stdMax minlevelLin (stdMin (Floats.lit 0.95) (Floats.pow (Floats.lit 10) (globalLevelDB / Floats.lit 20)))

variable [Mixing F D]

/-- `mix` up to the normalisation: `bufferMix` and `maxpeak`, if the mode is one of the three. -/
def mixed (bufferMix : ℕ → ℕ → F) : Option (Option ((ℕ → ℕ → F) × F)) := do
  let buffer ← get a.nchannels a.bufferPgm 0
  let (timestamps, undertoneLevel, percentile10) ← m.computeUndertoneLevel buffer a.nsamples a.samplerate
  if m.mMode = kDynamicLevelMode then (m.mixDynamic a timestamps undertoneLevel bufferMix).map some
  else if m.mMode = kGlobalLevelMode then (m.mixGlobal a (m.globalUndertoneLevel percentile10) bufferMix).map some
  else if m.mMode = kDefaultMode then (m.mixGlobal a m.defUndertoneLevel bufferMix).map some
  else return none

/-- Every sample is divided by the largest. -/
def normalize (maxpeak : F) (bufferMix : ℕ → ℕ → F) : Option (ℕ → ℕ → F) :=
  forUpM 0 a.nsamples (fun i bufferMix =>
    forUpM 0 a.nchannels (fun j bufferMix => do
      let x ← get2 a.nchannels a.nsamples bufferMix j i
      put2 a.nchannels a.nsamples bufferMix j i (x / maxpeak)) bufferMix) bufferMix

/-- `mix(bufferPgm, nsamples, nchannels, samplerate, bufferUndertone, bufferMix)`: what it returns, and `bufferMix`. -/
def mix (bufferMix : ℕ → ℕ → F) : Option (ℤ × (ℕ → ℕ → F)) := do
  match ← m.mixed a bufferMix with
  | none => return (1, bufferMix)
  | some (bufferMix, maxpeak) =>
    let bufferMix ← if m.mUseNormalize then normalize a maxpeak bufferMix else some bufferMix
    return (0, bufferMix)

end Mixer

end Undertone

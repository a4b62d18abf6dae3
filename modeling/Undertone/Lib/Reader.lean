import Mathlib.Data.List.Basic
import Mathlib.Data.List.Infix

/-!
# Readers of a byte stream

A program that reads a stream waits for a number of symbols, and goes on when they have arrived. `Reads` is a whole
number of such reads. How the stream was cut into packets is not part of it: two readings of the same stream only
differ in how far they got (`Reads.comparable`), and the reading of a part of a stream is a part of the reading of the
whole (`Reads.of_append`).
-/

variable {α σ ε : Type*}

/-- In a state the reader waits for a number of symbols (`none`: it reads no more); with these it goes to the next state
and has outputs (`none`: no defined outcome). -/
structure Reader (α σ ε : Type*) where
  want : σ → Option ℕ
  got : List α → σ → Option (List ε × σ)

/-- `Reads R s bs out s'`: from `s` the reader takes exactly `bs`, and is then in `s'`. -/
inductive Reads (R : Reader α σ ε) : σ → List α → List ε → σ → Prop
  | nil (s : σ) : Reads R s [] [] s
  | read {s s' s'' : σ} {bs rest : List α} {out out' : List ε} (hw : R.want s = some bs.length)
      (hg : R.got bs s = some (out, s')) (h : Reads R s' rest out' s'') : Reads R s (bs ++ rest) (out ++ out') s''

namespace Reads

variable {R : Reader α σ ε} {s s' s'' : σ} {bs cs l : List α} {out out' : List ε}

theorem one (hw : R.want s = some bs.length) (hg : R.got bs s = some (out, s')) : Reads R s bs out s' := by
  have h := Reads.read hw hg (Reads.nil s')
  rwa [List.append_nil, List.append_nil] at h

theorem append (h : Reads R s bs out s') (h' : Reads R s' cs out' s'') :
    Reads R s (bs ++ cs) (out ++ out') s'' := by
  induction h with
  | nil => exact h'
  | read hw hg _ ih =>
    rw [List.append_assoc, List.append_assoc]
    exact .read hw hg (ih h')

/-- What holds at the start and is kept by every read holds of all that was read. -/
theorem rule (I : List α → List ε → σ → Prop) (h0 : I [] [] s)
    (hs : ∀ bs out s1 cs out' s2, I bs out s1 → R.want s1 = some cs.length → R.got cs s1 = some (out', s2) →
      I (bs ++ cs) (out ++ out') s2) (h : Reads R s bs out s') : I bs out s' := by
  have hlater : ∀ ds o, I ds o s → I (ds ++ bs) (o ++ out) s' := by
    clear h0
    induction h with
    | nil => exact fun ds o hI => by rwa [List.append_nil, List.append_nil]
    | read hw hg _ ih =>
      intro ds o hI
      rw [← List.append_assoc, ← List.append_assoc]
      exact ih _ _ (hs _ _ _ _ _ _ hI hw hg)
  exact hlater [] [] h0

/-- A reader that has stopped takes nothing. -/
theorem stopped (hs : R.want s = none) (h : Reads R s bs out s') : bs = [] ∧ out = [] ∧ s' = s := by
  cases h with
  | nil => exact ⟨rfl, rfl, rfl⟩
  | read hw _ _ => exact absurd (hs.symm.trans hw) (by simp)

/-- A reader that waits for something takes nothing from nothing. -/
theorem nothing (hw : R.want s ≠ some 0) (h : Reads R s [] out s') : out = [] ∧ s' = s := by
  generalize hl : ([] : List α) = l at h
  cases h with
  | nil => exact ⟨rfl, rfl⟩
  | read hw' _ _ =>
    obtain ⟨rfl, -⟩ := List.append_eq_nil_iff.1 hl.symm
    exact absurd hw' hw

/-- A reading of a part of the stream `l` ends where it began, or behind the first read. -/
theorem first {n : ℕ} (hw : R.want s = some n) (hg : R.got (l.take n) s = some (out, s'')) (hb : bs <+: l)
    (h : Reads R s bs out' s') : s' = s ∨ ∃ cs o, cs <+: l.drop n ∧ Reads R s'' cs o s' := by
  cases h with
  | nil => exact .inl rfl
  | @read _ s1 _ bs0 rest o o1 hw' hg' h =>
    obtain rfl : n = bs0.length := Option.some.inj (hw.symm.trans hw')
    obtain ⟨k, rfl⟩ := hb
    rw [List.append_assoc, List.take_left] at hg
    obtain ⟨-, rfl⟩ := Prod.mk.inj (Option.some.inj (hg.symm.trans hg'))
    refine .inr ⟨rest, o1, ?_, h⟩
    rw [List.append_assoc, List.drop_left]
    exact List.prefix_append rest k

/-- Of two readings of one stream, one continues the other. -/
theorem comparable {k : List α} (h : Reads R s bs out s') (h' : Reads R s cs out' s'') (heq : bs ++ l = cs ++ k) :
    (∃ ds o, Reads R s' ds o s'' ∧ cs = bs ++ ds ∧ out' = out ++ o) ∨
      ∃ ds o, Reads R s'' ds o s' ∧ bs = cs ++ ds ∧ out = out' ++ o := by
  induction h generalizing cs out' with
  | nil => exact .inl ⟨cs, out', h', rfl, rfl⟩
  | @read s s1 s2 bs rest out out1 hw hg h ih =>
    cases h' with
    | nil => exact .inr ⟨bs ++ rest, out ++ out1, .read hw hg h, rfl, rfl⟩
    | @read _ t1 _ bs' rest' o o1 hw' hg' h' =>
      rw [List.append_assoc, List.append_assoc] at heq
      obtain ⟨rfl, htail⟩ := List.append_inj heq (Option.some.inj (hw.symm.trans hw'))
      obtain ⟨rfl, rfl⟩ := Prod.mk.inj (Option.some.inj (hg.symm.trans hg'))
      rcases ih h' htail with ⟨ds, o', hd, rfl, rfl⟩ | ⟨ds, o', hd, rfl, rfl⟩
      · exact .inl ⟨ds, o', hd, (List.append_assoc _ _ _).symm, (List.append_assoc _ _ _).symm⟩
      · exact .inr ⟨ds, o', hd, (List.append_assoc _ _ _).symm, (List.append_assoc _ _ _).symm⟩

/-- What was read of a stream that can be read whole can be continued to the whole, if at its end the reader waits for
more. -/
theorem of_append (h : Reads R s (bs ++ l) out s') (hw : R.want s' ≠ some 0) (h' : Reads R s bs out' s'') :
    ∃ o, Reads R s'' l o s' ∧ out = out' ++ o := by
  rcases h'.comparable h (l := l) (k := []) (by rw [List.append_nil]) with ⟨ds, o, hd, hl, rfl⟩ | ⟨ds, o, hd, hl, rfl⟩
  · exact ⟨o, by rwa [List.append_cancel_left hl], rfl⟩
  · have hlen := congrArg List.length hl
    simp only [List.length_append] at hlen
    obtain rfl : ds = [] := List.eq_nil_of_length_eq_zero (by omega)
    obtain rfl : l = [] := List.eq_nil_of_length_eq_zero (by omega)
    obtain ⟨rfl, rfl⟩ := hd.nothing hw
    exact ⟨[], .nil _, by rw [List.append_nil, List.append_nil]⟩

end Reads

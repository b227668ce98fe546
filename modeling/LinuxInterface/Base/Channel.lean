/-
  Descriptors of which the reads and writes come short, are interrupted or fail.

  A `Source` is what there is to read and a script of the kernel's answers; when the script is over,
  every read gets what it asks for.  A read of a source that is not at its end gets at least one byte
  unless it is interrupted or fails.  `Source.size` gets smaller with every read that is not at the
  end, so it bounds loops over reads.  A `Sink` is what has been written and such a script; a write may
  also put nothing.
-/
import Mathlib.Data.List.Basic

namespace LinuxInterface

/-- One answer of the kernel: not more than `k` bytes, `EINTR`, or another error. -/
inductive Answer where
  | upTo (k : Nat)
  | interrupted
  | failed
  deriving DecidableEq

/-- What a call comes back with. -/
inductive Got (α : Type) where
  | done (x : α)
  | interrupted
  | failed

/-! ## Reading -/

structure Source where
  input : List UInt8
  script : List Answer

/-- `read` with room for `n` bytes. -/
def Source.read (src : Source) (n : Nat) : Got (List UInt8) × Source :=
  match src.script with
  | [] => (.done (src.input.take n), ⟨src.input.drop n, []⟩)
  | .upTo k :: script =>
    (.done (src.input.take (min n (max k 1))), ⟨src.input.drop (min n (max k 1)), script⟩)
  | .interrupted :: script => (.interrupted, ⟨src.input, script⟩)
  | .failed :: script => (.failed, ⟨src.input, script⟩)

def Source.size (src : Source) : Nat := src.input.length + src.script.length

variable {src src' : Source} {n : Nat} {bs : List UInt8}

/-- What a read can do. -/
inductive Source.Reads (src : Source) (n : Nat) : Got (List UInt8) → Source → Prop where
  | done {k : Nat} {script : List Answer} (hk : k ≤ n) (hpos : 0 < n → 0 < k)
      (hscript : ∀ a ∈ script, a ∈ src.script) (hlen : script.length ≤ src.script.length) :
      Reads src n (.done (src.input.take k)) ⟨src.input.drop k, script⟩
  | interrupted {script : List Answer} (h : src.script = .interrupted :: script) :
      Reads src n .interrupted ⟨src.input, script⟩
  | failed {script : List Answer} (h : src.script = .failed :: script) :
      Reads src n .failed ⟨src.input, script⟩

theorem Source.read_reads (src : Source) (n : Nat) : src.Reads n (src.read n).1 (src.read n).2 := by
  unfold Source.read
  split
  · exact .done (Nat.le_refl n) id (fun _ h => nomatch h) (Nat.zero_le _)
  · next k script h =>
    refine .done (Nat.min_le_left _ _) (fun hn => by omega) (fun a ha => ?_) ?_
    · rw [h]
      exact List.mem_cons_of_mem _ ha
    · rw [h]
      exact Nat.le_succ _
  · next script h => exact .interrupted h
  · next script h => exact .failed h

/-- A read that gets something gets the beginning of what there is. -/
theorem Source.read_done {c : UInt8} {cs : List UInt8} (h : src.read n = (.done (c :: cs), src')) :
    (c :: cs) ++ src'.input = src.input ∧ (c :: cs).length ≤ n ∧ (∀ a ∈ src'.script, a ∈ src.script)
      ∧ src'.size + (c :: cs).length ≤ src.size := by
  have hreads := src.read_reads n
  rw [h] at hreads
  generalize hbs : Got.done (c :: cs) = got at hreads
  cases hreads with
  | @done k script hk hpos hscript hlen =>
    obtain hbs : c :: cs = src.input.take k := Got.done.inj hbs
    have hlen' : (c :: cs).length = min k src.input.length := by rw [hbs, List.length_take]
    refine ⟨by rw [hbs]; exact List.take_append_drop k src.input, by omega, hscript, ?_⟩
    show (src.input.drop k).length + script.length + (c :: cs).length
      ≤ src.input.length + src.script.length
    rw [List.length_drop, hlen']
    omega
  | interrupted _ => cases hbs
  | failed _ => cases hbs

/-- A read that gets nothing is at the end. -/
theorem Source.read_end (hn : 0 < n) (h : src.read n = (.done [], src')) :
    src.input = [] ∧ src'.input = [] ∧ ∀ a ∈ src'.script, a ∈ src.script := by
  have hreads := src.read_reads n
  rw [h] at hreads
  generalize hbs : Got.done [] = got at hreads
  cases hreads with
  | @done k script hk hpos hscript hlen =>
    obtain hbs : [] = src.input.take k := Got.done.inj hbs
    have hnil : src.input = [] := by
      rcases List.take_eq_nil_iff.mp hbs.symm with h0 | hnil
      · exact absurd h0 (Nat.pos_iff_ne_zero.mp (hpos hn))
      · exact hnil
    refine ⟨hnil, ?_, hscript⟩
    show src.input.drop k = []
    rw [hnil, List.drop_nil]
  | interrupted _ => cases hbs
  | failed _ => cases hbs

theorem Source.read_interrupted (h : src.read n = (.interrupted, src')) :
    src.script = .interrupted :: src'.script ∧ src'.input = src.input ∧ src'.size < src.size := by
  have hreads := src.read_reads n
  rw [h] at hreads
  cases hreads with
  | interrupted hscript =>
    refine ⟨hscript, rfl, ?_⟩
    simp [Source.size, hscript]

theorem Source.read_failed (h : src.read n = (.failed, src')) :
    src.script = .failed :: src'.script ∧ src'.input = src.input := by
  have hreads := src.read_reads n
  rw [h] at hreads
  cases hreads with
  | failed hscript => exact ⟨hscript, rfl⟩

/-! ## Writing -/

structure Sink where
  output : List UInt8
  script : List Answer

/-- `write` of `data`. -/
def Sink.write (snk : Sink) (data : List UInt8) : Got Nat × Sink :=
  match snk.script with
  | [] => (.done data.length, ⟨snk.output ++ data, []⟩)
  | .upTo k :: script =>
    (.done (min k data.length), ⟨snk.output ++ data.take k, script⟩)
  | .interrupted :: script => (.interrupted, ⟨snk.output, script⟩)
  | .failed :: script => (.failed, ⟨snk.output, script⟩)

/-- What a write can do. -/
inductive Sink.Writes (snk : Sink) (data : List UInt8) : Got Nat → Sink → Prop where
  | done {k : Nat} {script : List Answer} (hk : k ≤ data.length)
      (hzero : k = 0 → data = [] ∨ ∃ script, snk.script = .upTo 0 :: script)
      (hscript : ∀ a ∈ script, a ∈ snk.script) (hlen : script.length ≤ snk.script.length) :
      Writes snk data (.done k) ⟨snk.output ++ data.take k, script⟩
  | interrupted {script : List Answer} (h : snk.script = .interrupted :: script) :
      Writes snk data .interrupted ⟨snk.output, script⟩
  | failed {script : List Answer} (h : snk.script = .failed :: script) :
      Writes snk data .failed ⟨snk.output, script⟩

theorem Sink.write_writes (snk : Sink) (data : List UInt8) :
    snk.Writes data (snk.write data).1 (snk.write data).2 := by
  unfold Sink.write
  split
  · have hall : snk.Writes data (.done data.length) ⟨snk.output ++ data.take data.length, []⟩ := by
      refine .done (Nat.le_refl _) (fun h => Or.inl ?_) (fun _ h => nomatch h) (Nat.zero_le _)
      exact List.eq_nil_of_length_eq_zero h
    rw [List.take_length] at hall
    exact hall
  · next k script h =>
    have hsome : snk.Writes data (.done (min k data.length))
        ⟨snk.output ++ data.take (min k data.length), script⟩ := by
      refine .done (Nat.min_le_right _ _) (fun h0 => ?_) (fun a ha => ?_) ?_
      · rcases Nat.eq_zero_or_pos data.length with hd | hd
        · exact Or.inl (List.eq_nil_of_length_eq_zero hd)
        · obtain rfl : k = 0 := by omega
          exact Or.inr ⟨script, h⟩
      · rw [h]
        exact List.mem_cons_of_mem _ ha
      · rw [h]
        exact Nat.le_succ _
    rw [← List.take_eq_take_min] at hsome
    exact hsome
  · next script h => exact .interrupted h
  · next script h => exact .failed h

end LinuxInterface

/-
  sockets/rdwrn.c (tlpi-dist): `readn` and `writen`, which go on after reads and writes that come short
  or are interrupted.

  1. **The functions** — the loops, on a source or a sink whose answers are any script.

  2. **Which call is the last** — `Stopped` and `ReadFails` tell from the kernel's answers alone
     whether a call that fails is made; in the loops the answers used so far are an invariant
     (`WrittenSoFar`, `ReadSoFar`).

  3. **What they do** — `readn_spec` and `writen_spec`, also where a call fails.

  4. **There and back** — what `writen` has written `readn` reads, however the two are cut up
     (`readn_writen`).
-/
import LinuxInterface.Base.Channel
import LinuxInterface.Base.Loop

namespace LinuxInterface.Rdwrn

open LinuxInterface

/-! ## The functions -/

/-- A return of `readn`: its value, the bytes put into the buffer, and the source. -/
structure Readn where
  ret : Int
  buf : List UInt8
  src : Source

/-- A round of the loop of `readn`, with `buf` read so far. -/
def readnRound (n : Nat) (s : List UInt8 × Source) : Turn (List UInt8 × Source) Readn :=
  let (buf, src) := s
  if buf.length < n then
    match src.read (n - buf.length) with
    | (.done [], src') => .leave ⟨buf.length, buf, src'⟩
    | (.done (c :: cs), src') => .again (buf ++ c :: cs, src')
    | (.interrupted, src') => .again (buf, src')
    | (.failed, src') => .leave ⟨-1, buf, src'⟩
  else .leave ⟨buf.length, buf, src⟩

def readn (n : Nat) (src : Source) : Option Readn := loopN (readnRound n) (src.size + 1) ([], src)

/-- A round of the loop of `writen`, with `tot` bytes of `buf` written. -/
def writenRound (buf : List UInt8) (s : Nat × Sink) : Turn (Nat × Sink) (Int × Sink) :=
  let (tot, snk) := s
  if tot < buf.length then
    match snk.write (buf.drop tot) with
    | (.done 0, snk') => .leave (-1, snk')
    | (.done (k + 1), snk') => .again (tot + (k + 1), snk')
    | (.interrupted, snk') => .again (tot, snk')
    | (.failed, snk') => .leave (-1, snk')
  else .leave (tot, snk)

def writen (buf : List UInt8) (snk : Sink) : Option (Int × Sink) :=
  loopN (writenRound buf) (buf.length + snk.script.length + 1) (0, snk)

/-! ## Which call is the last -/

/-- A write that fails, or takes nothing. -/
def stops : Answer → Bool
  | .failed => true
  | .upTo 0 => true
  | _ => false

/-- The bytes that the writes with these answers take of a long buffer. -/
def taken : List Answer → Nat
  | [] => 0
  | .upTo k :: as => k + taken as
  | _ :: as => taken as

/-- The bytes that the reads with these answers get of a long input. -/
def got : List Answer → Nat
  | [] => 0
  | .upTo k :: as => max k 1 + got as
  | _ :: as => got as

/-- A write that stops comes before `n` bytes are out. -/
def Stopped (n : Nat) (ws : List Answer) : Prop :=
  ∃ done a rest, ws = done ++ a :: rest ∧ stops a = true ∧ taken done < n

/-- A read that fails comes before `n` bytes or all of the `avail` bytes are in, or after the latter
    but before a read that finds the end. -/
def ReadFails (n avail : Nat) (rs : List Answer) : Prop :=
  ∃ done rest, rs = done ++ .failed :: rest ∧ min (got done) avail < n ∧
    ∀ pre k post, done = pre ++ .upTo k :: post → got pre < avail

theorem taken_append (as bs : List Answer) : taken (as ++ bs) = taken as + taken bs := by
  induction as with
  | nil => exact (Nat.zero_add _).symm
  | cons a as ih =>
    cases a with
    | upTo k =>
      show k + taken (as ++ bs) = k + taken as + taken bs
      omega
    | interrupted => exact ih
    | failed => exact ih

theorem got_append (as bs : List Answer) : got (as ++ bs) = got as + got bs := by
  induction as with
  | nil => exact (Nat.zero_add _).symm
  | cons a as ih =>
    cases a with
    | upTo k =>
      show max k 1 + got (as ++ bs) = max k 1 + got as + got bs
      omega
    | interrupted => exact ih
    | failed => exact ih

/-- An answer that is not among those used is among those left. -/
theorem later {done left done' rest : List Answer} {a : Answer} (h : done ++ left = done' ++ a :: rest)
    (ha : a ∉ done) : ∃ post, done' = done ++ post ∧ left = post ++ a :: rest := by
  rcases List.append_eq_append_iff.mp h with ⟨post, h1, h2⟩ | ⟨pre, h1, h2⟩
  · exact ⟨post, h1, h2⟩
  · cases pre with
    | nil => exact ⟨[], by rw [h1, List.append_nil, List.append_nil], h2.symm⟩
    | cons b pre =>
      obtain ⟨rfl, -⟩ := List.cons.inj h2
      exact absurd (h1 ▸ List.mem_append_right _ List.mem_cons_self) ha

/-- The last of the answers used, or an earlier one. -/
theorem snoc_split {done pre post : List Answer} {x a : Answer} (h : done ++ [x] = pre ++ a :: post) :
    done = pre ∧ x = a ∨ ∃ post', done = pre ++ a :: post' := by
  rcases List.eq_nil_or_concat post with rfl | ⟨post', y, rfl⟩
  · obtain ⟨h1, h2⟩ := List.append_inj' h rfl
    exact Or.inl ⟨h1, (List.cons.inj h2).1⟩
  · rw [List.concat_eq_append, ← List.cons_append, ← List.append_assoc] at h
    exact Or.inr ⟨post', (List.append_inj' h rfl).1⟩

/-- `len` of `n` bytes are out, and `left` of the answers `all` are left. -/
def WrittenSoFar (n len : Nat) (all left : List Answer) : Prop :=
  ∃ done, all = done ++ left ∧ (∀ a ∈ done, stops a = false) ∧ (left = [] ∨ len = min (taken done) n)

section Writes

variable {n len k : Nat} {all left : List Answer}

theorem writtenSoFar_start (n : Nat) (all : List Answer) : WrittenSoFar n 0 all all :=
  ⟨[], rfl, nofun, Or.inr (Nat.zero_min n).symm⟩

theorem WrittenSoFar.interrupted (h : WrittenSoFar n len all (.interrupted :: left)) :
    WrittenSoFar n len all left := by
  obtain ⟨done, hall, hgo, hlen⟩ := h
  refine ⟨done ++ [.interrupted], by rw [hall, List.append_assoc]; rfl, ?_, Or.inr ?_⟩
  · simpa [or_imp, forall_and] using ⟨hgo, rfl⟩
  · rw [hlen.resolve_left nofun, taken_append]
    rfl

/-- A write of something, but perhaps not of everything. -/
theorem WrittenSoFar.more (h : WrittenSoFar n len all (.upTo (k + 1) :: left)) (hlt : len < n) :
    WrittenSoFar n (len + min (k + 1) (n - len)) all left := by
  obtain ⟨done, hall, hgo, hlen⟩ := h
  refine ⟨done ++ [.upTo (k + 1)], by rw [hall, List.append_assoc]; rfl, ?_, Or.inr ?_⟩
  · simpa [or_imp, forall_and] using ⟨hgo, rfl⟩
  · have hlen := hlen.resolve_left nofun
    have htaken : taken (done ++ [.upTo (k + 1)]) = taken done + (k + 1) := taken_append _ _
    omega

theorem WrittenSoFar.rest {len' : Nat} (h : WrittenSoFar n len all []) : WrittenSoFar n len' all [] := by
  obtain ⟨done, hall, hgo, -⟩ := h
  exact ⟨done, hall, hgo, Or.inl rfl⟩

theorem WrittenSoFar.stopped {a : Answer} (h : WrittenSoFar n len all (a :: left)) (ha : stops a = true)
    (hlt : len < n) : Stopped n all := by
  obtain ⟨done, hall, hgo, hlen⟩ := h
  have hlen := hlen.resolve_left nofun
  exact ⟨done, a, left, hall, ha, by omega⟩

/-- Everything is out. -/
theorem WrittenSoFar.not_stopped (h : WrittenSoFar n n all left) : ¬ Stopped n all := by
  obtain ⟨done, hall, hgo, hlen⟩ := h
  rintro ⟨done', a, rest, hall', ha, hlt⟩
  have hmem : a ∉ done := fun hmem => nomatch (hgo a hmem).symm.trans ha
  obtain ⟨post, rfl, rfl⟩ := later (hall.symm.trans hall') hmem
  have hlen : n = min (taken done) n := hlen.resolve_left (by simp)
  rw [taken_append] at hlt
  omega

end Writes

/-- `len` of `n` bytes are in, of `avail` bytes there are, and `left` of the answers `all` are left. -/
def ReadSoFar (n avail len : Nat) (all left : List Answer) : Prop :=
  ∃ done, all = done ++ left ∧ .failed ∉ done ∧
    (∀ pre k post, done = pre ++ .upTo k :: post → got pre < avail) ∧
    (left = [] ∨ len = min (got done) (min n avail))

section Reads

variable {n avail len k : Nat} {all left : List Answer}

theorem readSoFar_start (n avail : Nat) (all : List Answer) : ReadSoFar n avail 0 all all := by
  refine ⟨[], rfl, nofun, fun pre k post h => ?_, Or.inr (Nat.zero_min _).symm⟩
  exact absurd h (by simp)

theorem ReadSoFar.interrupted (h : ReadSoFar n avail len all (.interrupted :: left)) :
    ReadSoFar n avail len all left := by
  obtain ⟨done, hall, hgo, hmore, hlen⟩ := h
  refine ⟨done ++ [.interrupted], by rw [hall, List.append_assoc]; rfl, by simpa using hgo,
    fun pre k post hsplit => ?_, Or.inr ?_⟩
  · rcases snoc_split hsplit with ⟨-, hx⟩ | ⟨post', hdone⟩
    · nomatch hx
    · exact hmore pre k post' hdone
  · rw [hlen.resolve_left nofun, got_append]
    rfl

/-- A read that gets something. -/
theorem ReadSoFar.more (h : ReadSoFar n avail len all (.upTo k :: left)) (hn : len < n)
    (hlt : len < avail) :
    ReadSoFar n avail (len + min (min (n - len) (max k 1)) (avail - len)) all left := by
  obtain ⟨done, hall, hgo, hmore, hlen⟩ := h
  have hlen := hlen.resolve_left nofun
  refine ⟨done ++ [.upTo k], by rw [hall, List.append_assoc]; rfl, by simpa using hgo,
    fun pre k' post hsplit => ?_, Or.inr ?_⟩
  · rcases snoc_split hsplit with ⟨rfl, -⟩ | ⟨post', hdone⟩
    · omega
    · exact hmore pre k' post' hdone
  · have hgot : got (done ++ [.upTo k]) = got done + max k 1 := got_append _ _
    omega

theorem ReadSoFar.rest {len' : Nat} (h : ReadSoFar n avail len all []) :
    ReadSoFar n avail len' all [] := by
  obtain ⟨done, hall, hgo, hmore, -⟩ := h
  exact ⟨done, hall, hgo, hmore, Or.inl rfl⟩

theorem ReadSoFar.fails (h : ReadSoFar n avail len all (.failed :: left)) (hlt : len < n) :
    ReadFails n avail all := by
  obtain ⟨done, hall, hgo, hmore, hlen⟩ := h
  have hlen := hlen.resolve_left nofun
  exact ⟨done, left, hall, by omega, hmore⟩

/-- Everything is in that was asked for. -/
theorem ReadSoFar.not_fails (h : ReadSoFar n avail n all left) : ¬ ReadFails n avail all := by
  obtain ⟨done, hall, hgo, hmore, hlen⟩ := h
  rintro ⟨done', rest, hall', hlt, -⟩
  obtain ⟨post, rfl, rfl⟩ := later (hall.symm.trans hall') hgo
  have hlen : n = min (got done) (min n avail) := hlen.resolve_left (by simp)
  rw [got_append] at hlt
  omega

/-- A read finds the end. -/
theorem ReadSoFar.not_fails_end (h : ReadSoFar n avail avail all left)
    (hleft : left = [] ∨ ∃ k left', left = .upTo k :: left') : ¬ ReadFails n avail all := by
  obtain ⟨done, hall, hgo, hmore, hlen⟩ := h
  rintro ⟨done', rest, hall', -, hmore'⟩
  obtain ⟨post, rfl, hpost⟩ := later (hall.symm.trans hall') hgo
  rcases hleft with rfl | ⟨k, left', rfl⟩
  · exact absurd hpost (by simp)
  · have hlen := hlen.resolve_left nofun
    cases post with
    | nil => nomatch (List.cons.inj hpost).1
    | cons b post =>
      obtain ⟨rfl, -⟩ := List.cons.inj hpost
      have hlt := hmore' done k post rfl
      omega

end Reads

/-! ## What they do -/

/-- In the loop of `readn` nothing is lost and there is never too much. -/
structure Reading (n : Nat) (src₀ : Source) (s : List UInt8 × Source) : Prop where
  split : s.1 ++ s.2.input = src₀.input
  room : s.1.length ≤ n
  used : ReadSoFar n src₀.input.length s.1.length src₀.script s.2.script

variable {n : Nat} {src₀ : Source} {s s' : List UInt8 × Source}

theorem Reading.length (h : Reading n src₀ s) : s.1.length + s.2.input.length = src₀.input.length := by
  rw [← h.split, List.length_append]

/-- A read that gets something. -/
theorem Reading.more {buf cs : List UInt8} {c : UInt8} {src src' : Source}
    (h : Reading n src₀ (buf, src)) (hlt : buf.length < n)
    (hread : src.read (n - buf.length) = (.done (c :: cs), src')) :
    Reading n src₀ (buf ++ c :: cs, src') ∧ src'.size < src.size := by
  obtain ⟨hsplit, hlen, -, hsize⟩ := Source.read_done hread
  have hold : buf ++ src.input = src₀.input := h.split
  have hlength : buf.length + src.input.length = src₀.input.length := h.length
  have hused : ReadSoFar n src₀.input.length buf.length src₀.script src.script := h.used
  have hinput : (c :: cs).length + src'.input.length = src.input.length := by
    rw [← hsplit, List.length_append]
  have hcons : (c :: cs).length = cs.length + 1 := rfl
  refine ⟨⟨?_, ?_, ?_⟩, by omega⟩
  · show (buf ++ c :: cs) ++ src'.input = src₀.input
    rw [List.append_assoc, hsplit, hold]
  · show (buf ++ c :: cs).length ≤ n
    rw [List.length_append]
    omega
  · show ReadSoFar n src₀.input.length (buf ++ c :: cs).length src₀.script src'.script
    obtain ⟨input, script⟩ := src
    cases script with
    | nil =>
      obtain ⟨-, hsrc⟩ := Prod.mk.inj hread
      rw [← hsrc]
      exact hused.rest
    | cons a script =>
      cases a with
      | upTo k =>
        obtain ⟨hgot, hsrc⟩ := Prod.mk.inj hread
        have hgot : input.take (min (n - buf.length) (max k 1)) = c :: cs := Got.done.inj hgot
        have hmore := ReadSoFar.more hused hlt (by omega)
        rw [List.length_append, ← hgot, List.length_take, ← hsrc]
        have havail : src₀.input.length - buf.length = input.length := by
          have hlength : buf.length + input.length = src₀.input.length := hlength
          omega
        rw [havail] at hmore
        exact hmore
      | interrupted => nomatch hread
      | failed => nomatch hread

theorem Reading.again (h : Reading n src₀ s) (hs : readnRound n s = .again s') :
    Reading n src₀ s' ∧ s'.2.size < s.2.size := by
  obtain ⟨buf, src⟩ := s
  unfold readnRound at hs
  dsimp only at hs
  split at hs
  · next hlt =>
    split at hs
    · cases hs
    · next c cs src' hread =>
      cases hs
      exact h.more hlt hread
    · next src' hread =>
      cases hs
      obtain ⟨hscript, hinput, hsize⟩ := Source.read_interrupted hread
      have hused : ReadSoFar n src₀.input.length buf.length src₀.script src.script := h.used
      rw [hscript] at hused
      refine ⟨⟨?_, h.room, hused.interrupted⟩, hsize⟩
      show buf ++ src'.input = src₀.input
      rw [hinput]
      exact h.split
    · cases hs
  · cases hs

/-- What `readn` returns: the bytes asked for or all there are, unless it has come to a read that
    fails; nothing is lost from the source in any case. -/
structure ReadnSpec (n : Nat) (src : Source) (r : Readn) : Prop where
  split : r.buf ++ r.src.input = src.input
  ret : (r.ret = r.buf.length ∧ r.buf = src.input.take n ∧ ¬ ReadFails n src.input.length src.script)
    ∨ (r.ret = -1 ∧ r.buf.length < n ∧ ReadFails n src.input.length src.script)

theorem Reading.leave {r : Readn} (h : Reading n src₀ s) (hs : readnRound n s = .leave r) :
    ReadnSpec n src₀ r := by
  obtain ⟨buf, src⟩ := s
  have hsplit : buf ++ src.input = src₀.input := h.split
  have hroom : buf.length ≤ n := h.room
  have hused : ReadSoFar n src₀.input.length buf.length src₀.script src.script := h.used
  unfold readnRound at hs
  dsimp only at hs
  split at hs
  · next hlt =>
    split at hs
    · next src' hread =>
      cases hs
      obtain ⟨hend, hend', -⟩ := Source.read_end (by omega) hread
      have hbuf : buf = src₀.input := by rw [← hsplit, hend, List.append_nil]
      refine ⟨?_, Or.inl ⟨rfl, ?_, ?_⟩⟩
      · show buf ++ src'.input = src₀.input
        rw [hend', ← hsplit, hend]
      · rw [← hbuf, List.take_of_length_le hroom]
      · rw [hbuf] at hused
        refine hused.not_fails_end ?_
        obtain ⟨input, script⟩ := src
        cases script with
        | nil => exact Or.inl rfl
        | cons a script =>
          cases a with
          | upTo k => exact Or.inr ⟨k, script, rfl⟩
          | interrupted => nomatch hread
          | failed => nomatch hread
    · cases hs
    · cases hs
    · next src' hread =>
      cases hs
      obtain ⟨hscript, hinput⟩ := Source.read_failed hread
      rw [hscript] at hused
      refine ⟨?_, Or.inr ⟨rfl, hlt, hused.fails hlt⟩⟩
      show buf ++ src'.input = src₀.input
      rw [hinput, hsplit]
  · next hge =>
    cases hs
    obtain rfl : n = buf.length := by omega
    refine ⟨hsplit, Or.inl ⟨rfl, ?_, hused.not_fails⟩⟩
    rw [← hsplit, List.take_left]

/-- **`readn` returns**, and as it should. -/
theorem readn_spec (n : Nat) (src : Source) : ∃ r, readn n src = some r ∧ ReadnSpec n src r := by
  have hstart : Reading n src ([], src) :=
    ⟨rfl, Nat.zero_le n, readSoFar_start n src.input.length src.script⟩
  obtain ⟨r, s, hr, hs, hleave⟩ := loopN_total (μ := fun s : List UInt8 × Source => s.2.size)
    (fun s s' hI hb => hI.again hb) hstart (Nat.lt_succ_self src.size)
  exact ⟨r, hr, hs.leave hleave⟩

/-- In the loop of `writen` the first `tot` bytes are out. -/
structure Writing (buf : List UInt8) (snk₀ : Sink) (s : Nat × Sink) : Prop where
  out : s.2.output = snk₀.output ++ buf.take s.1
  le : s.1 ≤ buf.length
  used : WrittenSoFar buf.length s.1 snk₀.script s.2.script

variable {buf : List UInt8} {snk₀ : Sink} {w w' : Nat × Sink}

/-- A write that takes something. -/
theorem Writing.more {tot k : Nat} {snk snk' : Sink} (h : Writing buf snk₀ (tot, snk))
    (hlt : tot < buf.length) (hwrite : snk.write (buf.drop tot) = (.done (k + 1), snk')) :
    Writing buf snk₀ (tot + (k + 1), snk') ∧ snk'.script.length ≤ snk.script.length := by
  obtain ⟨output, script⟩ := snk
  have hout : output = snk₀.output ++ buf.take tot := h.out
  have hused : WrittenSoFar buf.length tot snk₀.script script := h.used
  have htake : ∀ j, buf.take (tot + j) = buf.take tot ++ (buf.drop tot).take j := fun j => List.take_add
  have hdrop : (buf.drop tot).length = buf.length - tot := List.length_drop
  cases script with
  | nil =>
    obtain ⟨hk, rfl⟩ := Prod.mk.inj hwrite
    have hk : (buf.drop tot).length = k + 1 := Got.done.inj hk
    refine ⟨⟨?_, ?_, hused.rest⟩, Nat.le_refl _⟩
    · show output ++ buf.drop tot = snk₀.output ++ buf.take (tot + (k + 1))
      rw [htake, ← hk, List.take_length, hout, List.append_assoc]
    · show tot + (k + 1) ≤ buf.length
      omega
  | cons a script =>
    cases a with
    | upTo j =>
      obtain ⟨hk, rfl⟩ := Prod.mk.inj hwrite
      have hk : min j (buf.drop tot).length = k + 1 := Got.done.inj hk
      obtain ⟨i, rfl⟩ : ∃ i, j = i + 1 := ⟨j - 1, by omega⟩
      refine ⟨⟨?_, ?_, ?_⟩, Nat.le_succ _⟩
      · show output ++ (buf.drop tot).take (i + 1) = snk₀.output ++ buf.take (tot + (k + 1))
        rw [htake, ← hk, ← List.take_eq_take_min, hout, List.append_assoc]
      · show tot + (k + 1) ≤ buf.length
        omega
      · have hmore := WrittenSoFar.more hused hlt
        rw [← hdrop, hk] at hmore
        exact hmore
    | interrupted => nomatch hwrite
    | failed => nomatch hwrite

theorem Writing.again (h : Writing buf snk₀ w) (hs : writenRound buf w = .again w') :
    Writing buf snk₀ w' ∧ buf.length - w'.1 + w'.2.script.length < buf.length - w.1 + w.2.script.length := by
  obtain ⟨tot, snk⟩ := w
  have hused : WrittenSoFar buf.length tot snk₀.script snk.script := h.used
  unfold writenRound at hs
  dsimp only at hs
  split at hs
  · next hlt =>
    split at hs
    · cases hs
    · next k snk' hwrite =>
      cases hs
      obtain ⟨hmore, hscript⟩ := h.more hlt hwrite
      refine ⟨hmore, ?_⟩
      dsimp only
      omega
    · next snk' hwrite =>
      cases hs
      have hwrites := snk.write_writes (buf.drop tot)
      rw [hwrite] at hwrites
      cases hwrites with
      | interrupted hscript =>
        rw [hscript] at hused
        refine ⟨⟨h.out, h.le, hused.interrupted⟩, ?_⟩
        dsimp only
        rw [hscript, List.length_cons]
        omega
    · cases hs
  · cases hs

/-- What `writen` returns: everything is out, or it has come to a call that stops it and a beginning
    is. -/
def WritenSpec (buf : List UInt8) (snk : Sink) (r : Int × Sink) : Prop :=
  (r.1 = buf.length ∧ r.2.output = snk.output ++ buf ∧ ¬ Stopped buf.length snk.script)
  ∨ (r.1 = -1 ∧ Stopped buf.length snk.script ∧ ∃ k < buf.length, r.2.output = snk.output ++ buf.take k)

theorem Writing.leave {r : Int × Sink} (h : Writing buf snk₀ w) (hs : writenRound buf w = .leave r) :
    WritenSpec buf snk₀ r := by
  obtain ⟨tot, snk⟩ := w
  have hout : snk.output = snk₀.output ++ buf.take tot := h.out
  have hle : tot ≤ buf.length := h.le
  have hused : WrittenSoFar buf.length tot snk₀.script snk.script := h.used
  unfold writenRound at hs
  dsimp only at hs
  split at hs
  · next hlt =>
    have hwrites := snk.write_writes (buf.drop tot)
    split at hs
    · next snk' hwrite =>
      cases hs
      rw [hwrite] at hwrites
      cases hwrites with
      | done hk hzero hscript hlen =>
        obtain ⟨script, hstop⟩ : ∃ script, snk.script = .upTo 0 :: script :=
          (hzero rfl).resolve_left fun hnil => by
            rw [List.drop_eq_nil_iff] at hnil
            omega
        rw [hstop] at hused
        refine Or.inr ⟨rfl, hused.stopped rfl hlt, tot, hlt, ?_⟩
        show snk.output ++ (buf.drop tot).take 0 = _
        rw [List.take_zero, List.append_nil, hout]
    · cases hs
    · cases hs
    · next snk' hwrite =>
      cases hs
      rw [hwrite] at hwrites
      cases hwrites with
      | failed hscript =>
        rw [hscript] at hused
        exact Or.inr ⟨rfl, hused.stopped rfl hlt, tot, hlt, hout⟩
  · next hge =>
    cases hs
    obtain rfl : tot = buf.length := by omega
    rw [List.take_length] at hout
    exact Or.inl ⟨rfl, hout, hused.not_stopped⟩

/-- **`writen` returns**, and as it should. -/
theorem writen_spec (buf : List UInt8) (snk : Sink) :
    ∃ r, writen buf snk = some r ∧ WritenSpec buf snk r := by
  have hstart : Writing buf snk (0, snk) := by
    refine ⟨?_, Nat.zero_le _, writtenSoFar_start _ _⟩
    rw [List.take_zero, List.append_nil]
  obtain ⟨r, s, hr, hs, hleave⟩ :=
    loopN_total (μ := fun s : Nat × Sink => buf.length - s.1 + s.2.script.length)
      (fun s s' hI hb => hI.again hb) hstart (Nat.lt_succ_self (buf.length + snk.script.length))
  exact ⟨r, hr, hs.leave hleave⟩

/-! ## There and back -/

/-- **A record written with `writen` is read with `readn`**, however both sides
    are cut up and interrupted.  `writen` returns -1 exactly if it comes to a write that fails or takes
    nothing, and then a proper beginning of the record is written; `readn` returns -1 exactly if it
    comes to a read that fails, and otherwise gets all that was written. -/
theorem readn_writen (record : List UInt8) (ws rs : List Answer) :
    ∃ ret snk r, writen record ⟨[], ws⟩ = some (ret, snk) ∧
      readn record.length ⟨snk.output, rs⟩ = some r ∧
      (ret = -1 ↔ Stopped record.length ws) ∧
      (¬ Stopped record.length ws → ret = record.length ∧ snk.output = record) ∧
      (Stopped record.length ws → snk.output <+: record ∧ snk.output.length < record.length) ∧
      (r.ret = -1 ↔ ReadFails record.length snk.output.length rs) ∧
      (¬ ReadFails record.length snk.output.length rs → r.ret = r.buf.length ∧ r.buf = snk.output) ∧
      r.buf ++ r.src.input = snk.output := by
  obtain ⟨⟨ret, snk⟩, hw, hwspec⟩ := writen_spec record ⟨[], ws⟩
  obtain ⟨r, hr, hrspec⟩ := readn_spec record.length ⟨snk.output, rs⟩
  have hwhole : snk.output.length ≤ record.length := by
    rcases hwspec with ⟨-, hout, -⟩ | ⟨-, -, k, hk, hout⟩
    · have hout : snk.output = record := hout
      exact Nat.le_of_eq (congrArg List.length hout)
    · rw [show snk.output = record.take k from hout, List.length_take]
      exact Nat.min_le_right _ _
  refine ⟨ret, snk, r, hw, hr, ?_, ?_, ?_, ?_, ?_, hrspec.split⟩
  · rcases hwspec with ⟨hret, -, hgo⟩ | ⟨hret, hstop, -⟩
    · have hret : ret = record.length := hret
      exact ⟨fun h => absurd (hret.symm.trans h) (by omega), fun h => absurd h hgo⟩
    · exact ⟨fun _ => hstop, fun _ => hret⟩
  · intro hgo
    rcases hwspec with ⟨hret, hout, -⟩ | ⟨-, hstop, -⟩
    · exact ⟨hret, hout⟩
    · exact absurd hstop hgo
  · intro hstop
    rcases hwspec with ⟨-, -, hgo⟩ | ⟨-, -, k, hk, hout⟩
    · exact absurd hstop hgo
    · rw [show snk.output = record.take k from hout]
      refine ⟨List.take_prefix k record, ?_⟩
      rw [List.length_take]
      omega
  · rcases hrspec.ret with ⟨hret, -, hgo⟩ | ⟨hret, -, hfail⟩
    · exact ⟨fun h => absurd (hret.symm.trans h) (by omega), fun h => absurd h hgo⟩
    · exact ⟨fun _ => hfail, fun _ => hret⟩
  · intro hgo
    rcases hrspec.ret with ⟨hret, hbuf, -⟩ | ⟨-, -, hfail⟩
    · exact ⟨hret, hbuf.trans (List.take_of_length_le hwhole)⟩
    · exact absurd hfail hgo

-- five bytes in three writes, and in two reads
example : (writen [1, 2, 3, 4, 5] ⟨[], [.upTo 2, .interrupted, .upTo 1]⟩).map (fun r => (r.1, r.2.output)) =
    some (5, [1, 2, 3, 4, 5]) := by decide

-- the second read is not made
example : (readn 5 ⟨[1, 2, 3, 4, 5], [.upTo 5, .failed]⟩).map (fun r => (r.ret, r.buf)) =
    some (5, [1, 2, 3, 4, 5]) := by decide

end LinuxInterface.Rdwrn

/-
  sockets/is_seqnum_sv.c and is_seqnum_cl.c (tlpi-dist, with their second versions is_seqnum_v2_sv.c and
  is_seqnum_v2_cl.c): a server that hands out sequence numbers over stream sockets, in text.

  1. **Server and client** — the server takes one connection after the other; on each it reads a line
     with `readLine`, and answers with its counter if the line asks for a positive number.

  2. **Any clients** — whatever they send and however it arrives, the ranges granted lie edge to edge
     (`server_tiles`).

  3. **Clients that behave** — each prints the start of its own range (`clients_numbered`).
-/
import LinuxInterface.Base.Scanf
import LinuxInterface.Base.Tiling
import LinuxInterface.Dist.ReadLine
import Mathlib.Data.BitVec

namespace LinuxInterface.IsSeqnum

open LinuxInterface
open LinuxInterface.ReadLine (readLine Line)

/-! ## Server and client -/

def INT_LEN : Nat := 30

/-- A connection, seen from the server: what it can read, and how much of its answer the socket takes. -/
structure Conn where
  incoming : Source
  taken : Nat

/-- What comes of a connection; `reply` is what has been sent. -/
inductive Outcome where
  | refused
  | granted (start : BitVec 32) (len : Nat) (reply : List UInt8)

/-- One round of the server. -/
def serve (seqNum : BitVec 32) (conn : Conn) : Option (Outcome × BitVec 32) :=
  (readLine INT_LEN conn.incoming).map fun r =>
    if r.1.ret ≤ 0 then (.refused, seqNum)
    else
      let reqLen := atoi (cstring r.1.buffer)
      if reqLen ≤ 0 then (.refused, seqNum)
      else
        -- `%d` shows the unsigned counter as an `int`
        let seqNumStr := (decimalInt seqNum.toInt ++ [LF]).take (INT_LEN - 1)
        (.granted seqNum reqLen.toNat (seqNumStr.take conn.taken), seqNum + BitVec.ofInt 32 reqLen)

/-- The server, for the connections it accepts. -/
def server (seqNum : BitVec 32) : List Conn → Option (List Outcome × BitVec 32)
  | [] => some ([], seqNum)
  | conn :: conns =>
    (serve seqNum conn).bind fun r =>
      (server r.2 conns).map fun rs => (r.1 :: rs.1, rs.2)

/-- What the client writes in front of the number. -/
def banner : List UInt8 := ascii "Sequence number: ".toList

/-- The client, which has sent its request: what it prints of the answer, if it gets one. -/
def client (answer : Source) : Option (Option (List UInt8)) :=
  (readLine INT_LEN answer).map fun r =>
    if r.1.ret ≤ 0 then none else some (banner ++ cstring r.1.buffer)

/-! ## Any clients -/

/-- A range the server has granted. -/
structure Grant where
  start : BitVec 32
  len : Nat
  reply : List UInt8

def Outcome.grant : Outcome → Option Grant
  | .refused => none
  | .granted start len reply => some ⟨start, len, reply⟩

def grants (outcomes : List Outcome) : List Grant := outcomes.filterMap Outcome.grant

/-- The numbers granted. -/
def total (outcomes : List Outcome) : Nat := ((grants outcomes).map Grant.len).sum

/-- What a round does to the counter. -/
inductive Serves (seqNum : BitVec 32) : Outcome → BitVec 32 → Prop where
  | refused : Serves seqNum .refused seqNum
  | granted {len : Nat} {reply : List UInt8} (hlen : 0 < len) (hint : len < 2 ^ 31)
      (hreply : reply <+: decimalInt seqNum.toInt ++ [LF]) :
      Serves seqNum (.granted seqNum len reply) (seqNum + BitVec.ofNat 32 len)

theorem serve_serves (seqNum : BitVec 32) (conn : Conn) :
    ∃ o seqNum', serve seqNum conn = some (o, seqNum') ∧ Serves seqNum o seqNum' := by
  obtain ⟨r, src', hr, -⟩ := ReadLine.readLine_spec (show INT_LEN ≠ 0 by decide) conn.incoming
  unfold serve
  rw [hr, Option.map_some]
  by_cases hret : r.ret ≤ 0
  · exact ⟨_, _, congrArg some (if_pos hret), .refused⟩
  · rw [if_neg hret]
    dsimp only
    by_cases hreq : atoi (cstring r.buffer) ≤ 0
    · exact ⟨_, _, congrArg some (if_pos hreq), .refused⟩
    · rw [if_neg hreq]
      have hlt := atoi_lt (cstring r.buffer)
      have hcast : atoi (cstring r.buffer) = ((atoi (cstring r.buffer)).toNat : Int) := by omega
      refine ⟨_, _, rfl, ?_⟩
      have hnum : BitVec.ofInt 32 (atoi (cstring r.buffer))
          = BitVec.ofNat 32 (atoi (cstring r.buffer)).toNat := by
        rw [hcast, BitVec.ofInt_natCast]
        rfl
      rw [hnum]
      refine .granted (by omega) (by omega) ?_
      exact (List.take_prefix _ _).trans (List.take_prefix _ _)

theorem toInt_of_lt {x : BitVec 32} (h : x.toNat < 2 ^ 31) : x.toInt = x.toNat := by
  rw [BitVec.toInt_eq_toNat_cond, if_pos (by omega)]

theorem decimalInt_natCast (n : Nat) : decimalInt n = decimal n := by
  unfold decimalInt
  rw [if_neg (by omega), Int.natAbs_natCast]

/-- A grant as the client should see it. -/
structure Sound (g : Grant) : Prop where
  pos : 0 < g.len
  reply : g.reply <+: decimal g.start.toNat ++ [LF]

/-- **Whatever the clients do**, the server serves them all, and as long as the counter stays an `int`
    the ranges it grants lie edge to edge, from where it was to where it is: no number is handed out
    twice and none is left out.  What it has sent for a range is (the beginning of) its first number in
    decimal. -/
theorem server_tiles (conns : List Conn) : ∀ init : BitVec 32,
    ∃ outcomes final, server init conns = some (outcomes, final) ∧
      (init.toNat + total outcomes < 2 ^ 31 →
        Tiles Eq (fun g => g.start.toNat) Grant.len init.toNat (grants outcomes) final.toNat ∧
          ∀ g ∈ grants outcomes, Sound g) := by
  induction conns with
  | nil =>
    intro init
    exact ⟨[], init, rfl, fun _ => ⟨rfl, fun g hg => nomatch hg⟩⟩
  | cons conn conns ih =>
    intro init
    obtain ⟨o, next, hserve, hserves⟩ := serve_serves init conn
    obtain ⟨outcomes, final, hrest, htiles⟩ := ih next
    refine ⟨o :: outcomes, final, ?_, fun hfit => ?_⟩
    · rw [server, hserve, Option.bind_some, hrest]
      rfl
    · cases hserves with
      | refused => exact htiles hfit
      | @granted len reply hlen hint hreply =>
        have hfit' : init.toNat + (len + total outcomes) < 2 ^ 31 := hfit
        have hnext : (init + BitVec.ofNat 32 len).toNat = init.toNat + len := by
          rw [BitVec.toNat_add, BitVec.toNat_ofNat]
          omega
        obtain ⟨ht, hsound⟩ := htiles (by omega)
        rw [hnext] at ht
        refine ⟨⟨rfl, ht⟩, fun g hg => ?_⟩
        rcases List.mem_cons.mp hg with rfl | hg
        · refine ⟨hlen, ?_⟩
          rw [toInt_of_lt (by omega), decimalInt_natCast] at hreply
          exact hreply
        · exact hsound g hg

/-- A client that asks for three numbers, and one that asks for nonsense. -/
theorem server_tiles_two :
    ∃ outcomes final, server 5 [⟨⟨decimal 3 ++ [LF], []⟩, 30⟩, ⟨⟨[45, LF], []⟩, 30⟩]
        = some (outcomes, final) ∧ total outcomes = 3 ∧
      Tiles Eq (fun g => g.start.toNat) Grant.len 5 (grants outcomes) final.toNat ∧
      ∀ g ∈ grants outcomes, Sound g := by
  have hrun : (server 5 [⟨⟨decimal 3 ++ [LF], []⟩, 30⟩, ⟨⟨[45, LF], []⟩, 30⟩]).map
      (fun r => total r.1) = some 3 := by decide +kernel
  obtain ⟨outcomes, final, hserver, htiles⟩ :=
    server_tiles [⟨⟨decimal 3 ++ [LF], []⟩, 30⟩, ⟨⟨[45, LF], []⟩, 30⟩] 5
  rw [hserver] at hrun
  have htotal : total outcomes = 3 := Option.some.inj hrun
  refine ⟨outcomes, final, hserver, htotal, htiles ?_⟩
  rw [htotal]
  decide

/-! ## Clients that behave -/

/-- A line that fits is read as the string it is. -/
theorem readLine_fits {line rest : List UInt8} {script : List Answer} (hLF : LF ∉ line) (hzero : 0 ∉ line)
    (hlen : line.length + 1 < INT_LEN) (hscript : .failed ∉ script) :
    ∃ r src', readLine INT_LEN ⟨line ++ LF :: rest, script⟩ = some (r, src') ∧ 0 < r.ret ∧
      cstring r.buffer = line ++ [LF] := by
  obtain ⟨r, src', hr, hline, -, hterm, -⟩ :=
    ReadLine.readLine_spec (show INT_LEN ≠ 0 by decide) ⟨line ++ LF :: rest, script⟩
  have hgets := hline.resolve_right fun h => hscript h.2
  have htake : (firstLine LF (line ++ LF :: rest)).take (INT_LEN - 1) = line ++ [LF] := by
    rw [firstLine_of_mem hLF, List.take_of_length_le]
    rw [List.length_append, List.length_singleton]
    omega
  obtain ⟨hret, htext, -⟩ := hgets
  have hret' : r.ret = (line ++ [LF]).length := by rw [← htake]; exact hret
  have htext' : r.text = line ++ [LF] := htext.trans htake
  have hpos : 0 < r.ret := by
    rw [hret', List.length_append, List.length_singleton]
    omega
  refine ⟨r, src', hr, hpos, ?_⟩
  have hno : 0 ∉ line ++ [LF] := by
    rw [List.mem_append, List.mem_singleton]
    rintro (h | h)
    · exact hzero h
    · exact absurd h (by decide)
  rw [hterm hpos, htext', cstring, List.takeWhile_append_of_pos]
  · simp
  · intro c hc
    exact decide_eq_true fun h => hno (h ▸ hc)

theorem length_decimal_int {n : Nat} (h : n < 2 ^ 31) : (decimal n).length + 1 < INT_LEN := by
  have hlen : (decimal n).length ≤ 10 := length_decimal (by decide) (by omega)
  have hINT : INT_LEN = 30 := rfl
  omega

/-- A number in decimal is read as it is. -/
theorem readLine_decimal {n : Nat} {script : List Answer} (h : n < 2 ^ 31) (hscript : .failed ∉ script) :
    ∃ r src', readLine INT_LEN ⟨decimal n ++ [LF], script⟩ = some (r, src') ∧ 0 < r.ret ∧
      cstring r.buffer = decimal n ++ [LF] :=
  readLine_fits (not_mem_decimal (by decide) n) (not_mem_decimal (by decide) n) (length_decimal_int h)
    hscript

theorem atoi_request {n : Nat} (h : n < 2 ^ 31) : atoi (decimal n ++ [LF]) = n := by
  have hatoi := atoi_digits (s := [LF]) (fun c => isdigit_of_mem_decimal) (decimal_ne_nil n)
    (fun c hc => by cases hc; decide) (by rw [value_decimal]; exact h)
  rw [value_decimal] at hatoi
  exact hatoi

/-- A client with the length it asks for, and how the reads of its request and of the answer go. -/
structure Client where
  len : Nat
  toServer : List Answer
  toClient : List Answer

/-- The connection of a client, which has sent its request and a newline. -/
def Client.conn (c : Client) : Conn := ⟨⟨decimal c.len ++ [LF], c.toServer⟩, INT_LEN⟩

def Outcome.reply : Outcome → List UInt8
  | .refused => []
  | .granted _ _ reply => reply

/-- One client and the server: what the client prints, and the counter. -/
def session (seqNum : BitVec 32) (c : Client) : Option (Option (List UInt8) × BitVec 32) :=
  (serve seqNum c.conn).bind fun r =>
    (client ⟨r.1.reply, c.toClient⟩).map fun printed => (printed, r.2)

def sessions (seqNum : BitVec 32) : List Client → Option (List (Option (List UInt8)) × BitVec 32)
  | [] => some ([], seqNum)
  | c :: cs => (session seqNum c).bind fun r => (sessions r.2 cs).map fun rs => (r.1 :: rs.1, rs.2)

/-- What a client prints that has got the number `n`. -/
def message (n : Nat) : List UInt8 := banner ++ (decimal n ++ [LF])

/-- A client that asks for a positive number, and whose connection does not break. -/
structure Client.Behaves (c : Client) : Prop where
  pos : 0 < c.len
  toServer : .failed ∉ c.toServer
  toClient : .failed ∉ c.toClient

theorem session_numbered {seqNum : BitVec 32} {c : Client} (hc : c.Behaves)
    (hfit : seqNum.toNat + c.len < 2 ^ 31) :
    session seqNum c = some (some (message seqNum.toNat), seqNum + BitVec.ofNat 32 c.len) := by
  obtain ⟨r, src', hr, hpos, hbuf⟩ := readLine_decimal (show c.len < 2 ^ 31 by omega) hc.toServer
  have hreply : ((decimalInt seqNum.toInt ++ [LF]).take (INT_LEN - 1)).take INT_LEN
      = decimal seqNum.toNat ++ [LF] := by
    have hlen := length_decimal_int (show seqNum.toNat < 2 ^ 31 by omega)
    rw [toInt_of_lt (by omega), decimalInt_natCast, List.take_of_length_le, List.take_of_length_le]
    · rw [List.length_append, List.length_singleton]
      omega
    · rw [List.length_take, List.length_append, List.length_singleton]
      omega
  have hserve : serve seqNum c.conn
      = some (.granted seqNum c.len (decimal seqNum.toNat ++ [LF]), seqNum + BitVec.ofNat 32 c.len) := by
    unfold serve Client.conn
    dsimp only
    rw [hr, Option.map_some, if_neg (by dsimp only; omega)]
    dsimp only
    rw [hbuf, atoi_request (by omega), if_neg (by have := hc.pos; omega), hreply, Int.toNat_natCast,
      BitVec.ofInt_natCast]
  obtain ⟨r', src'', hr', hpos', hbuf'⟩ :=
    readLine_decimal (show seqNum.toNat < 2 ^ 31 by omega) hc.toClient
  have hclient : client ⟨decimal seqNum.toNat ++ [LF], c.toClient⟩ = some (some (message seqNum.toNat)) := by
    unfold client
    rw [hr', Option.map_some, if_neg (by dsimp only; omega), hbuf']
    rfl
  rw [session, hserve, Option.bind_some, Outcome.reply, hclient]
  rfl

/-- **Clients that behave** each print the first number of their own range: the one the server had at
    the start and all that was asked for before. -/
theorem clients_numbered : ∀ (clients : List Client) (init : BitVec 32), (∀ c ∈ clients, c.Behaves) →
    init.toNat + (clients.map Client.len).sum < 2 ^ 31 →
      ∃ printed final, sessions init clients = some (printed, final) ∧
        printed.length = clients.length ∧
        final.toNat = init.toNat + (clients.map Client.len).sum ∧
        ∀ i < clients.length,
          printed[i]? = some (some (message (init.toNat + ((clients.take i).map Client.len).sum))) := by
  intro clients
  induction clients with
  | nil =>
    intro init _ _
    exact ⟨[], init, rfl, rfl, rfl, fun i hi => absurd hi (Nat.not_lt_zero i)⟩
  | cons c cs ih =>
    intro init hall hfit
    rw [List.map_cons, List.sum_cons] at hfit ⊢
    have hsession := session_numbered (hall c List.mem_cons_self) (show init.toNat + c.len < 2 ^ 31 by omega)
    have hnext : (init + BitVec.ofNat 32 c.len).toNat = init.toNat + c.len := by
      rw [BitVec.toNat_add, BitVec.toNat_ofNat]
      omega
    obtain ⟨printed, final, hrun, hlen, hfinal, hprinted⟩ :=
      ih (init + BitVec.ofNat 32 c.len) (fun d hd => hall d (List.mem_cons_of_mem c hd)) (by omega)
    refine ⟨some (message init.toNat) :: printed, final, ?_, by rw [List.length_cons, hlen]; rfl,
      by omega, ?_⟩
    · rw [sessions, hsession, Option.bind_some, hrun]
      rfl
    · intro i hi
      cases i with
      | zero => rfl
      | succ i =>
        rw [List.length_cons] at hi
        rw [List.getElem?_cons_succ, hprinted i (by omega), hnext, List.take_succ_cons, List.map_cons,
          List.sum_cons, Nat.add_assoc]

/-- Two clients, the first with an interrupted read. -/
theorem clients_numbered_two :
    ∃ printed final, sessions 7 [⟨3, [.interrupted], [.upTo 1]⟩, ⟨1, [], []⟩] = some (printed, final) ∧
      printed[1]? = some (some (message 10)) := by
  obtain ⟨printed, final, hrun, -, -, hprinted⟩ :=
    clients_numbered [⟨3, [.interrupted], [.upTo 1]⟩, ⟨1, [], []⟩] 7
      (by
        intro c hc
        rcases List.mem_cons.mp hc with rfl | hc
        · exact ⟨by decide, by decide, by decide⟩
        · obtain rfl := List.mem_singleton.mp hc
          exact ⟨by decide, by decide, by decide⟩)
      (by decide)
  exact ⟨printed, final, hrun, hprinted 1 (by decide)⟩

end LinuxInterface.IsSeqnum

/-
  ch12/2_pstree.c: `print_process_tree`, which prints the processes as a tree.

  1. **The program** — for every entry of the table whose `ppid` is the one looked for, a line and
     then, by recursion, the lines of its children.  An access outside the array and a recursion
     that does not end are `Stop`s.

  2. **The tree** — this is the search that `Links.grow` makes, line by line (`print_of_grow`).  The
     parent of every entry is one and process 1 has none in the table, so the recursion ends
     although nothing is marked and there may be circles elsewhere
     (`printProcessTree_preorder`).

  3. **Who is missing** — the processes from which the links do not lead to 1: their parents are 0,
     or were not there any more (`main_prints_all_iff`).

  4. **The array** — nothing keeps `process_count` below `MAX_PROCESSES` (`accesses_within_iff`).
-/
import LinuxInterface.Base.Forest
import LinuxInterface.Ch12.ReadProcesses

namespace LinuxInterface.PsTree

open LinuxInterface

/-! ## The program -/

/-- What is printed: the first line, or a line for a process behind `steps` times two blanks. -/
inductive Print where
  | header
  | line (steps : Nat) (p : Process)
  deriving DecidableEq

namespace Print

def bytes : Print → List UInt8
  | header => ascii ['s', 'y', 's', 't', 'e', 'm', 'd', '\n']
  | line steps p =>
    (List.replicate steps (ascii [' ', ' '])).flatten ++
      (decimalInt p.pid ++ ascii [' ', '('] ++ p.text ++ ascii [')', '\n'])

/-- The process that a line is for. -/
def process : Print → Option Process
  | header => none
  | line _ p => some p

end Print

section

variable (maxProcesses : Nat) (t : List Process)

/-- `processes[i]`. -/
def load (i : Nat) : Except Stop Process :=
  match t[i]? with
  | some p => if i < maxProcesses then .ok p else .error (.outside i)
  | none => .error (.outside i)

/-- The loop over the table, for the indices that are left. -/
def printLoop (ppid : Int) (level : Nat) (print : Int → Nat → Except Stop (List Print)) :
    List Nat → Except Stop (List Print)
  | [] => .ok []
  | i :: is =>
    (load maxProcesses t i).bind fun p =>
      if p.ppid = ppid then
        (print p.pid (level + 1)).bind fun block =>
          (printLoop ppid level print is).map fun rest => .line (level + 1) p :: (block ++ rest)
      else printLoop ppid level print is

/-- `print_process_tree(ppid, level)`, down to a depth.  The loop that indents begins at -1. -/
def printProcessTree : Nat → Int → Nat → Except Stop (List Print)
  | 0, _, _ => .error .depth
  | depth + 1, ppid, level =>
    printLoop maxProcesses t ppid level (printProcessTree depth) (List.range t.length)

end

/-- `main()`. -/
def main (maxProcesses depth : Nat) (junk : Nat → Process) (dir : Option (List (ProcEntry Reading))) :
    Except Stop (List Print) :=
  (readProcesses maxProcesses junk dir).bind fun t =>
    (printProcessTree maxProcesses t depth 1 0).map fun lines => .header :: lines

/-! ## The tree -/

/-- The links of a table of processes. -/
def links : Links Process Int := ⟨Process.pid, Process.ppid⟩

/-- The lines of a preorder. -/
def lines (entries : List (Nat × Process)) : List Print := entries.map fun e => .line e.1 e.2

section

variable {maxProcesses : Nat} {t : List Process}

theorem load_eq {pre suf : List Process} {p : Process} (ht : t = pre ++ p :: suf)
    (hsize : t.length ≤ maxProcesses) : load maxProcesses t pre.length = .ok p := by
  have hlt : pre.length < maxProcesses := by
    have hlen := congrArg List.length ht
    rw [List.length_append, List.length_cons] at hlen
    omega
  have hget : t[pre.length]? = some p := by
    rw [ht, List.getElem?_append_right (Nat.le_refl _), Nat.sub_self]
    rfl
  unfold load
  rw [hget]
  exact if_pos hlt

/-- The rest of a loop: the lines of the trees that the children in it have. -/
theorem printLoop_of_grow {ppid : Int} {level : Nat}
    {print : Int → Nat → Except Stop (List Print)} {n : Nat}
    (hprint : ∀ r ts, links.grow t n r = some ts →
      print r (level + 1) = .ok (lines (preorderAll (level + 2) ts)))
    (hsize : t.length ≤ maxProcesses) {suf : List Process} :
    ∀ (pre : List Process) {ts : List (RoseTree Process)}, t = pre ++ suf →
      (links.childrenOf suf ppid).mapM (fun e => (links.grow t n e.pid).map (RoseTree.node e)) =
        some ts →
      printLoop maxProcesses t ppid level print (List.range' pre.length suf.length) =
        .ok (lines (preorderAll (level + 1) ts)) := by
  -- over the entries that are still to come; `pre` are those the loop has passed
  induction suf with
  | nil =>
    intro pre ts _ hts
    obtain rfl : [] = ts := Option.some.inj hts
    rfl
  | cons p suf ih =>
    intro pre ts ht hts
    have hnext : ∀ ts, (links.childrenOf suf ppid).mapM
        (fun e => (links.grow t n e.pid).map (RoseTree.node e)) = some ts →
        printLoop maxProcesses t ppid level print (List.range' (pre.length + 1) suf.length) =
          .ok (lines (preorderAll (level + 1) ts)) := by
      intro ts hts
      have hlen : pre.length + 1 = (pre ++ [p]).length := by simp
      rw [hlen]
      exact ih (pre ++ [p]) (by rw [ht, List.append_assoc]; rfl) hts
    rw [List.length_cons, List.range'_succ, printLoop, load_eq ht hsize]
    show (if p.ppid = ppid then _ else _) = _
    by_cases hp : p.ppid = ppid
    · -- a child: its line, its block, and the rest of the loop
      have hchildren : links.childrenOf (p :: suf) ppid = p :: links.childrenOf suf ppid :=
        List.filter_cons_of_pos (decide_eq_true hp)
      rw [hchildren, List.mapM_cons] at hts
      obtain ⟨tree, htree, hts⟩ := Option.bind_eq_some_iff.mp hts
      obtain ⟨rest, hrest, hts⟩ := Option.bind_eq_some_iff.mp hts
      obtain ⟨below, hbelow, rfl⟩ := Option.map_eq_some_iff.mp htree
      obtain rfl : _ = ts := Option.some.inj hts
      rw [if_pos hp, hprint _ _ hbelow, hnext rest hrest]
      show Except.ok _ = Except.ok _
      simp [lines, preorderAll, RoseTree.preorder]
    · have hchildren : links.childrenOf (p :: suf) ppid = links.childrenOf suf ppid :=
        List.filter_cons_of_neg fun h => hp (of_decide_eq_true h)
      rw [hchildren] at hts
      rw [if_neg hp]
      exact hnext ts hts

/-- What is printed, at any depth, are the trees that the search finds at that depth. -/
theorem print_of_grow (hsize : t.length ≤ maxProcesses) {depth : Nat} :
    ∀ {ppid : Int} {level : Nat} {ts : List (RoseTree Process)}, links.grow t depth ppid = some ts →
      printProcessTree maxProcesses t depth ppid level =
        .ok (lines (preorderAll (level + 1) ts)) := by
  induction depth with
  | zero => exact fun h => nomatch h
  | succ depth ih =>
    intro ppid level ts hts
    rw [printProcessTree, List.range_eq_range']
    exact printLoop_of_grow (fun r ts => ih) hsize [] rfl hts

/-- What the kernel sees to, for a table: the numbers of the processes are distinct and none is 0,
    and process 1 has no parent. -/
structure Numbered (t : List Process) : Prop where
  distinct : (t.map Process.pid).Nodup
  nonzero : ∀ p ∈ t, p.pid ≠ 0
  init : ∀ p ∈ t, p.pid = 1 → p.ppid = 0

theorem Numbered.linksDistinct (h : Numbered t) : links.Distinct t := h.distinct

/-- No chain of parents that leads to 1 passes through it before. -/
theorem Numbered.rootFree (h : Numbered t) : links.RootFree t 1 := by
  intro d p hreach hpid
  have hppid : p.ppid = 0 := h.init p hreach.mem hpid
  cases hreach with
  | child _ link =>
    have hone : p.ppid = 1 := link
    omega
  | @next _ _ q _ link up =>
    -- process 1 would have a parent in the table, with the number 0
    have hq : p.ppid = q.pid := link
    exact h.nonzero q up.mem (hq.symm.trans hppid)

/-- The walk ends, and prints the trees that hang from 1. -/
theorem exists_forest (hsize : t.length ≤ maxProcesses) (h : Numbered t) :
    ∃ forest, links.IsForest t 1 forest ∧
      printProcessTree maxProcesses t (t.length + 1) 1 0 = .ok (lines (preorderAll 1 forest)) := by
  obtain ⟨forest, hgrow, hforest⟩ := Links.grow_isForest h.linksDistinct h.rootFree
  exact ⟨forest, hforest, print_of_grow hsize hgrow⟩

/-- A process is in them if the links lead from it to 1, at the depth that they say. -/
theorem mem_forest_iff {forest : List (RoseTree Process)} (h : links.IsForest t 1 forest) {d : Nat}
    {p : Process} : (d, p) ∈ preorderAll 1 forest ↔ links.Reaches t 1 d p := by
  rw [Links.mem_preorder_iff h]
  constructor
  · rintro ⟨k, hk, rfl⟩
    rw [Nat.add_comm]
    exact hk
  · intro hd
    obtain ⟨k, rfl⟩ := Nat.exists_eq_add_of_le hd.pos
    exact ⟨k, by rw [Nat.add_comm]; exact hd, rfl⟩

/-- None of them is there twice. -/
theorem Numbered.nodup_forest (h : Numbered t) {forest : List (RoseTree Process)}
    (hforest : links.IsForest t 1 forest) : ((preorderAll 1 forest).map Prod.snd).Nodup :=
  Links.nodup_preorder h.linksDistinct hforest h.rootFree 1

/-- **The process tree.**  `print_process_tree(1, 0)` ends and prints, in preorder, the trees that
    hang from 1, siblings in the order of the table: a line for each process from which the links
    lead to 1, once, indented by the length of the chain, and no other line. -/
theorem printProcessTree_preorder (hsize : t.length ≤ maxProcesses) (h : Numbered t) :
    ∃ forest, links.IsForest t 1 forest ∧
      printProcessTree maxProcesses t (t.length + 1) 1 0 = .ok (lines (preorderAll 1 forest)) ∧
      (∀ d p, (d, p) ∈ preorderAll 1 forest ↔ links.Reaches t 1 d p) ∧
      ((preorderAll 1 forest).map Prod.snd).Nodup := by
  obtain ⟨forest, hforest, hprint⟩ := exists_forest hsize h
  exact ⟨forest, hforest, hprint, fun d p => mem_forest_iff hforest, h.nodup_forest hforest⟩

/-- Process 1, two children of it, a child of one of these, two processes that are each other's
    parents, and one whose parent is gone. -/
def tangled : List Process :=
  [⟨6, 5, [54]⟩, ⟨1, 0, [49]⟩, ⟨3, 2, [51]⟩, ⟨2, 1, [50]⟩, ⟨5, 6, [53]⟩, ⟨4, 1, [52]⟩, ⟨9, 8, [57]⟩]

/-- Printed are 2, 3 below it, and 4. -/
theorem printProcessTree_preorder_tangled :
    (printProcessTree 1024 tangled 8 1 0).toOption.map (·.flatMap Print.bytes) =
      some (ascii [' ', ' ', '2', ' ', '(', '2', ')', '\n',
        ' ', ' ', ' ', ' ', '3', ' ', '(', '3', ')', '\n', ' ', ' ', '4', ' ', '(', '4', ')', '\n']) ∧
    ∃ forest, links.IsForest tangled 1 forest ∧
      printProcessTree 1024 tangled 8 1 0 = .ok (lines (preorderAll 1 forest)) ∧
      (∀ d p, (d, p) ∈ preorderAll 1 forest ↔ links.Reaches tangled 1 d p) ∧
      ((preorderAll 1 forest).map Prod.snd).Nodup :=
  ⟨by decide +kernel, printProcessTree_preorder (by decide) ⟨by decide, by decide, by decide⟩⟩

/-! ## Who is missing -/

/-- A scan of `/proc`: every process is listed once, under a positive number, and process 1, whose
    parent is 0, does not go away while its file is read. -/
structure Scanned (os : List (Nat × Reading)) : Prop where
  distinct : (os.map Prod.fst).Nodup
  positive : ∀ o ∈ os, 0 < o.1
  init : ∀ o ∈ os, o.1 = 1 → o.2.status.ppid = 0 ∧
    (o.2.status.front ++ o.2.status.ppidLine).length ≤ o.2.cut

variable {junk : Nat → Process} {os : List (Nat × Reading)}

theorem mem_record {i : Nat} {p : Process} (h : p ∈ record junk i os) :
    ∃ o ∈ os, ∃ j, p = readStatus { junk j with pid := o.1 } o.2.text := by
  induction os generalizing i with
  | nil => nomatch h
  | cons o os ih =>
    rcases List.mem_cons.mp h with rfl | h
    · exact ⟨o, List.mem_cons_self, i, rfl⟩
    · obtain ⟨o', ho', hj⟩ := ih h
      exact ⟨o', List.mem_cons_of_mem _ ho', hj⟩

theorem map_pid_record (i : Nat) :
    (record junk i os).map Process.pid = os.map fun o => (o.1 : Int) := by
  induction os generalizing i with
  | nil => rfl
  | cons o os ih => rw [record, List.map_cons, List.map_cons, readStatus_pid, ih]

theorem Scanned.numbered (h : Scanned os) : Numbered (record junk 0 os) where
  distinct := by
    rw [map_pid_record]
    exact List.map_map ▸ h.distinct.map fun a b => Int.ofNat.inj
  nonzero := by
    intro p hp
    obtain ⟨o, ho, j, rfl⟩ := mem_record hp
    have hpos := h.positive o ho
    rw [readStatus_pid]
    show (o.1 : Int) ≠ 0
    omega
  init := by
    intro p hp hpid
    obtain ⟨o, ho, j, rfl⟩ := mem_record hp
    rw [readStatus_pid] at hpid
    obtain ⟨hppid, hcut⟩ := h.init o ho (Int.ofNat.inj hpid)
    rw [readStatus_complete o.2 hcut, hppid]
    rfl

theorem length_record (i : Nat) : (record junk i os).length = os.length := by
  induction os generalizing i with
  | nil => rfl
  | cons o os ih => rw [record, List.length_cons, List.length_cons, ih]

theorem process_lines (entries : List (Nat × Process)) :
    (lines entries).filterMap Print.process = entries.map Prod.snd := by
  induction entries with
  | nil => rfl
  | cons e entries ih =>
    show e.2 :: (lines entries).filterMap Print.process = _
    rw [ih, List.map_cons]

/-- A process has a line iff the links lead from it to 1, and then it has one. -/
theorem Numbered.count_forest (h : Numbered t) {forest : List (RoseTree Process)}
    (hforest : links.IsForest t 1 forest) {p : Process} :
    ((preorderAll 1 forest).map Prod.snd).count p = 1 ↔ ∃ d, links.Reaches t 1 d p := by
  constructor
  · intro hcount
    have hp : p ∈ (preorderAll 1 forest).map Prod.snd :=
      List.count_pos_iff.mp (by rw [hcount]; exact Nat.one_pos)
    obtain ⟨⟨d, q⟩, hdq, rfl⟩ := List.mem_map.mp hp
    exact ⟨d, (mem_forest_iff hforest).mp hdq⟩
  · rintro ⟨d, hd⟩
    exact List.count_eq_one_of_mem (h.nodup_forest hforest)
      (List.mem_map_of_mem ((mem_forest_iff hforest).mpr hd))

/-- **Nobody is missing** from what `main` prints if and only if the parents of all the processes
    that were recorded lead to process 1. -/
theorem main_prints_all_iff (junk : Nat → Process) (dir : List (ProcEntry Reading)) {t : List Process}
    (hscan : Scanned (dir.filterMap ProcEntry.opened))
    (hread : readProcesses MAX_PROCESSES junk (some dir) = .ok t) :
    ∃ out, main MAX_PROCESSES (t.length + 1) junk (some dir) = .ok out ∧
      ((∀ p ∈ t, p.pid ≠ 1 → (out.filterMap Print.process).count p = 1) ↔
        ∀ p ∈ t, p.pid ≠ 1 → ∃ d, links.Reaches t 1 d p) := by
  have hok := readProcesses_ok_iff.mp hread
  have hsize : t.length ≤ MAX_PROCESSES := by
    rw [hok.2, length_record]
    exact hok.1
  have hnumbered : Numbered t := by
    rw [hok.2]
    exact hscan.numbered
  obtain ⟨forest, hforest, hprint⟩ := exists_forest hsize hnumbered
  refine ⟨.header :: lines (preorderAll 1 forest), ?_, ?_⟩
  · rw [main, hread]
    show Except.map _ _ = _
    rw [hprint]
    rfl
  · show (∀ p ∈ _, p.pid ≠ 1 →
      ((lines (preorderAll 1 forest)).filterMap Print.process).count p = 1) ↔ _
    rw [process_lines]
    exact forall_congr' fun p => forall_congr' fun _ => forall_congr' fun _ =>
      hnumbered.count_forest hforest

/-- A status file with nothing but a name of one letter and a parent. -/
def brief (letter : UInt8) (ppid : Nat) (hline : letter ≠ LF) (hstring : letter ≠ 0)
    (hppid : ppid < 2 ^ 31) : Status where
  name := [letter]
  ppid := ppid
  between := []
  after := []
  name_line := by simpa using hline.symm
  name_string := by simpa using hstring.symm
  name_fits := by simp
  ppid_int := hppid
  between_lines := .inl rfl
  others := fun _ h => nomatch h

/-- Process 1 and a child of it. -/
def family : List (Pid × Reading) :=
  [(⟨1, by decide⟩, ⟨brief 65 0 (by decide) (by decide) (by decide), 100⟩),
    (⟨2, by decide⟩, ⟨brief 66 1 (by decide) (by decide) (by decide), 100⟩)]

/-- `/proc` with these processes. -/
def procOf (os : List (Pid × Reading)) : List (ProcEntry Reading) :=
  os.map fun o => .process o.1 (some o.2)

theorem main_prints_all_family :
    ∃ out, main MAX_PROCESSES
        ((record (fun _ => wrong) 0 ((procOf family).filterMap ProcEntry.opened)).length + 1)
        (fun _ => wrong) (some (procOf family)) = .ok out ∧
      ((∀ p ∈ record (fun _ => wrong) 0 ((procOf family).filterMap ProcEntry.opened), p.pid ≠ 1 →
          (out.filterMap Print.process).count p = 1) ↔
        ∀ p ∈ record (fun _ => wrong) 0 ((procOf family).filterMap ProcEntry.opened), p.pid ≠ 1 →
          ∃ d, links.Reaches
            (record (fun _ => wrong) 0 ((procOf family).filterMap ProcEntry.opened)) 1 d p) := by
  refine main_prints_all_iff (fun _ => wrong) _ ⟨?_, ?_, ?_⟩ ?_
  · decide
  · decide
  · decide
  · exact (readProcesses_eq _ _ _).trans (if_pos (by decide))

/-- Process 1, a kernel thread, whose parent is 0, and a process whose parent was 8. -/
def orphans : List (Pid × Reading) :=
  [(⟨1, by decide⟩, ⟨brief 65 0 (by decide) (by decide) (by decide), 100⟩),
    (⟨2, by decide⟩, ⟨brief 66 0 (by decide) (by decide) (by decide), 100⟩),
    (⟨9, by decide⟩, ⟨brief 67 8 (by decide) (by decide) (by decide), 100⟩)]

/-- **Processes without a line**: both of them are recorded, and neither is printed. -/
theorem main_prints_none :
    (readProcesses MAX_PROCESSES (fun _ => wrong) (some (procOf orphans))).toOption.map
        (·.map Process.pid) = some [1, 2, 9] ∧
    (main MAX_PROCESSES 4 (fun _ => wrong)
      (some (procOf orphans))).toOption.map (·.flatMap Print.bytes) =
        some (ascii ['s', 'y', 's', 't', 'e', 'm', 'd', '\n']) := by
  decide +kernel

/-! ## The array -/

theorem load_inside {i : Nat} (hi : i < t.length) (hsize : t.length ≤ maxProcesses) :
    ∃ p, load maxProcesses t i = .ok p := by
  refine ⟨t[i], ?_⟩
  unfold load
  rw [List.getElem?_eq_getElem hi]
  exact if_pos (by omega)

theorem printLoop_inside {ppid : Int} {level : Nat} {print : Int → Nat → Except Stop (List Print)}
    (hsize : t.length ≤ maxProcesses) (hprint : ∀ r l j, print r l ≠ .error (.outside j))
    {is : List Nat} (his : ∀ i ∈ is, i < t.length) (j : Nat) :
    printLoop maxProcesses t ppid level print is ≠ .error (.outside j) := by
  induction is with
  | nil => exact fun h => nomatch h
  | cons i is ih =>
    obtain ⟨p, hp⟩ := load_inside (his i List.mem_cons_self) hsize
    have hrest := ih fun k hk => his k (List.mem_cons_of_mem _ hk)
    rw [printLoop, hp]
    show (if p.ppid = ppid then _ else _) ≠ _
    split
    · cases hblock : print p.pid (level + 1) with
      | error e =>
        intro h
        exact hprint _ _ j (hblock.trans (congrArg Except.error (Except.error.inj h)))
      | ok block =>
        cases hloop : printLoop maxProcesses t ppid level print is with
        | error e =>
          intro h
          exact hrest (hloop.trans (congrArg Except.error (Except.error.inj h)))
        | ok rest => exact fun h => nomatch h
    · exact hrest

/-- However deep it goes, it reads no entry outside the array if there are none. -/
theorem printProcessTree_inside (hsize : t.length ≤ maxProcesses) (depth : Nat) :
    ∀ ppid level i, printProcessTree maxProcesses t depth ppid level ≠ .error (.outside i) := by
  induction depth with
  | zero => exact fun _ _ _ h => nomatch h
  | succ depth ih =>
    intro ppid level i
    exact printLoop_inside hsize ih (fun k hk => List.mem_range.mp hk) i

/-- **The accesses are inside the array**, after every part of the scan and however deep the tree
    is, if and only if not more processes can be opened than there is room for. -/
theorem accesses_within_iff (junk : Nat → Process) (dir : List (ProcEntry Reading)) :
    (∀ n, ∃ t, readProcesses MAX_PROCESSES junk (some (dir.take n)) = .ok t ∧
      t.length ≤ MAX_PROCESSES ∧ ∀ depth ppid level i,
        printProcessTree MAX_PROCESSES t depth ppid level ≠ .error (.outside i)) ↔
    (dir.filterMap ProcEntry.opened).length ≤ MAX_PROCESSES := by
  constructor
  · intro h
    -- after the whole scan
    obtain ⟨t, hread, -⟩ := h dir.length
    rw [List.take_length] at hread
    exact (readProcesses_ok_iff.mp hread).1
  · intro hroom n
    have hpart : ((dir.take n).filterMap ProcEntry.opened).length ≤ MAX_PROCESSES :=
      Nat.le_trans ((List.take_sublist n dir).filterMap _).length_le hroom
    have hlen : (record junk 0 ((dir.take n).filterMap ProcEntry.opened)).length ≤ MAX_PROCESSES := by
      rw [length_record]
      exact hpart
    exact ⟨record junk 0 ((dir.take n).filterMap ProcEntry.opened),
      readProcesses_ok_iff.mpr ⟨hpart, rfl⟩, hlen, printProcessTree_inside hlen⟩

/-- `/proc` with the processes 1 to `n`. -/
def crowd (n : Nat) : List (ProcEntry Reading) :=
  (List.range n).map fun i =>
    .process ⟨(i + 1) % 2147483648, Nat.mod_lt _ (by decide)⟩ (some ⟨tmuxServer, 100⟩)

theorem length_opened_crowd (n : Nat) : ((crowd n).filterMap ProcEntry.opened).length = n := by
  have hopened : (crowd n).filterMap ProcEntry.opened =
      (List.range n).map fun i => ((i + 1) % 2147483648, ⟨tmuxServer, 100⟩) := by
    rw [crowd, List.filterMap_map]
    exact congrFun List.filterMap_eq_map _
  rw [hopened, List.length_map, List.length_range]

/-- **One process too many** is stored behind the end of the array. -/
theorem crowd_overflows :
    readProcesses MAX_PROCESSES (fun _ => wrong) (some (crowd 1025)) = .error (.outside 1024) := by
  rw [readProcesses_eq, length_opened_crowd]
  exact if_neg (by decide)

end

end LinuxInterface.PsTree

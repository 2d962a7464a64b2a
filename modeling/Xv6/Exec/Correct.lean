/-
  What a call of `exec` leaves behind, read off the plan (`exec_spec`).

  If it returns 0, the stack has the arguments (`ArgumentStack`) and the image
  is the one that the program headers describe.  If it returns -1, the caller
  is as it was, but for two registers when the strings fit on the
  stack and the array of pointers does not.
-/
import Xv6.Exec.Exec

namespace Xv6

open Bytes Fallible Kmem

variable {B : Boot} {k : Kmem} {l : List UInt64} {r : UInt64} {argv : List CString}
  {s s' : ExecState} {T : UInt64 → Prop} {file : Option Program} {path : List UInt8} {f : Program}
  {plan : Plan}

/-- A run that returns 0. -/
theorem ExecState.exec_zero (hold : Space B s.kmem l s.proc.pgdir T)
    (hok : s.exec B file path argv = .ok (0, s')) :
    ∃ entry st l', execPlan file argv = .run entry st ∧ s'.proc = s.proc.next entry s'.proc.pgdir
        (npages st.sz + 2) path argv ∧ Space B s'.kmem l' s'.proc.pgdir T ∧
      Argued s'.kmem s'.proc.pgdir (npages st.sz + 2) st.data argv := by
  have hspec := exec_spec hold file path argv
  rw [hok] at hspec
  obtain ⟨-, -, hout⟩ := hspec
  cases hplan : execPlan file argv with
  | fail | late =>
    rw [hplan] at hout
    exact absurd hout.1 (by decide)
  | crash e =>
    rw [hplan] at hout
    exact hout.elim
  | run entry st =>
    rw [hplan] at hout
    obtain ⟨-, k, r, l', rfl, hspace, harg, -⟩ := hout
    exact ⟨entry, st, l', rfl, rfl, hspace, harg⟩

/-- With enough free pages, a plan without a panic is carried out. -/
theorem ExecState.exec_ok (hold : Space B s.kmem l s.proc.pgdir T) (hneed : execNeed file ≤ l.length)
    (hplan : execPlan file argv = plan) (hno : ∀ e, plan ≠ .crash e) (path : List UInt8) :
    ∃ res s', s.exec B file path argv = .ok (res, s') ∧
      Outcome B s.kmem l T { s with locked := s.locked && file.isNone } path argv plan res s' := by
  subst hplan
  have hspec := exec_spec hold file path argv
  obtain ⟨⟨res, s'⟩, -, hok, -, hout⟩ := (hspec.mono le_rfl (fun e he => hno e he)
    fun _ _ => id).run hneed
  exact ⟨res, s', hok, hout⟩

theorem ExecState.exec_run (hold : Space B s.kmem l s.proc.pgdir T) (hneed : execNeed file ≤ l.length)
    {entry : UInt64} {st : Loaded} (hplan : execPlan file argv = .run entry st) (path : List UInt8) :
    ∃ s', s.exec B file path argv = .ok (0, s') := by
  obtain ⟨_, s', hok, rfl, -⟩ := exec_ok hold hneed hplan (by rintro _ ⟨⟩) path
  exact ⟨s', hok⟩

theorem ExecState.exec_fail (hold : Space B s.kmem l s.proc.pgdir T) (hneed : execNeed file ≤ l.length)
    (hplan : execPlan file argv = .fail) (path : List UInt8) :
    ∃ s', s.exec B file path argv = .ok (-1, s') := by
  obtain ⟨_, s', hok, rfl, -⟩ := exec_ok hold hneed hplan (by rintro _ ⟨⟩) path
  exact ⟨s', hok⟩

theorem ExecState.exec_late (hold : Space B s.kmem l s.proc.pgdir T) (hneed : execNeed file ≤ l.length)
    {st : Loaded} (hplan : execPlan file argv = .late st) (path : List UInt8) :
    ∃ s', s.exec B file path argv = .ok (-1, s') ∧
      s'.proc = s.proc.spoiled (npages st.sz + 2) argv := by
  obtain ⟨_, _, hok, rfl, k, rfl, -⟩ := exec_ok hold hneed hplan (by rintro _ ⟨⟩) path
  exact ⟨_, hok, rfl⟩

/-- A program of one segment with one byte in the file. -/
def sampleElf : Program where
  bytes := [0x7F, 0x45, 0x4C, 0x46] ++ List.replicate 20 0 ++ [0, 0x10] ++ List.replicate 6 0 ++
    [64] ++ List.replicate 23 0 ++ [1] ++ List.replicate 7 0 ++ [1] ++ List.replicate 7 0 ++
    [120] ++ List.replicate 7 0 ++ [0, 0x10] ++ List.replicate 14 0 ++ [1] ++
    List.replicate 7 0 ++ [2] ++ List.replicate 15 0 ++ [42]
  size_lt := by decide

def sampleElfhdr : Elfhdr := ⟨ELF_MAGIC, 0x1000, 64, 1⟩

def sampleSegment : Proghdr := ⟨ELF_PROG_LOAD, 120, 0x1000, 1, 2⟩

theorem sampleElf_elfhdr : sampleElf.elfhdr = some sampleElfhdr := by decide +kernel

theorem sampleElf_proghdr : sampleElf.proghdr 64 = some sampleSegment := by decide +kernel

theorem sampleElf_load : sampleElf.load sampleElfhdr =
    .done ⟨0x1002, sampleElf.put sampleSegment fun _ => 0, false⟩ := by
  have hlong : ¬ sampleElf.bytes.length <
      sampleSegment.off.toUInt32.toNat + sampleSegment.filesz.toUInt32.toNat := by decide +kernel
  change sampleElf.layout 1 64 .start = _
  rw [Program.layout, sampleElf_proghdr]
  dsimp only
  rw [if_neg (by decide), Program.segment, if_neg (by decide), Program.copy, if_neg (by decide),
    if_neg (by decide)]
  dsimp only
  rw [if_neg (by decide), if_neg hlong]
  rfl

theorem sampleElf_plan (argv : List CString) :
    execPlan (some sampleElf) argv = match place 16384 argv [] with
      | .bad => .fail
      | .crash => .crash .nullPte
      | .fits => if used argv + 8 * (argv.length + 2) ≤ 4096 then
          .run 0x1000 ⟨0x1002, sampleElf.put sampleSegment fun _ => 0, false⟩
        else .late ⟨0x1002, sampleElf.put sampleSegment fun _ => 0, false⟩ := by
  rw [execPlan, filePlan, sampleElf_elfhdr]
  dsimp only
  rw [if_neg (by decide), sampleElf_load]
  rfl

theorem sampleElf_need : execNeed (some sampleElf) = 13 := by
  rw [execNeed, sampleElf_elfhdr]
  dsimp only
  rw [sampleElf_load]
  rfl

theorem sampleElf_runs (hold : Space B s.kmem l s.proc.pgdir T) (hlen : 50000 ≤ l.length)
    (path : List UInt8) : ∃ s', s.exec B (some sampleElf) path [] = .ok (0, s') := by
  have hneed := sampleElf_need
  exact ExecState.exec_run hold (hneed.trans_le (by omega)) (sampleElf_plan []) path

/-! ## The stack -/

/-- The stack of a program that starts, with its strings at the addresses `a`. -/
structure ArgumentStack (p : ExecProc) (k : Kmem) (argv : List CString) (a : ℕ → ℕ) : Prop where
  argc : p.tf.rdi.toNat = argv.length
  array : p.tf.rsi.toNat = p.tf.rsp.toNat + 8
  pc : UserWord k p.pgdir p.tf.rsp.toNat 0xFFFFFFFFFFFFFFFF
  pointer : ∀ j < argv.length, UserWord k p.pgdir (p.tf.rsi.toNat + 8 * j) (.ofNat (a j))
  null : UserWord k p.pgdir (p.tf.rsi.toNat + 8 * argv.length) 0
  string : ∀ j c, argv[j]? = some c → ∀ i < c.stored.length,
    ubyte k p.pgdir (a j + i) = c.stored[i]?
  aligned : p.sz.toNat % 4096 = 0
  low : p.sz.toNat - 4096 ≤ p.tf.rsp.toNat
  above : ∀ j < argv.length, p.tf.rsi.toNat + 8 * (argv.length + 1) ≤ a j
  apart : ∀ i j c, i < j → argv[j]? = some c → a j + c.stored.length ≤ a i
  high : ∀ j c, argv[j]? = some c → a j + c.stored.length ≤ p.sz.toNat
  guard : (userPage k p.pgdir (p.sz.toNat / 4096 - 2)).isSome ∧
    pte k p.pgdir (p.sz.toNat / 4096 - 2) &&& PTE_U = 0

theorem used_take_succ {j : ℕ} {c : CString} (h : argv[j]? = some c) :
    used (argv.take (j + 1)) = used (argv.take j) + (c.bytes.length + 8) / 8 * 8 := by
  rw [List.take_add_one, h, used_append, Option.toList_some, used_singleton]

theorem used_take_lt {i j : ℕ} {c : CString} (hij : i < j) (h : argv[j]? = some c) :
    used (argv.take (i + 1)) + c.stored.length ≤ used (argv.take (j + 1)) := by
  have hle := used_take_le (argv.take j) (i + 1)
  rw [List.take_take, min_eq_left hij] at hle
  rw [used_take_succ h, CString.stored, List.length_append, List.length_singleton]
  omega

theorem Kmem.Argued.argumentStack {m : ℕ} {data : ℕ → UInt8} (h : Argued k r m data argv)
    (hm : m ≤ 57345) (p : ExecProc) (entry : UInt64) (path : List UInt8) :
    ArgumentStack (p.next entry r m path argv) k argv
      fun j => 4096 * m - used (argv.take (j + 1)) := by
  have hroom := h.room
  have hthree := h.three
  have hsz : (UInt64.ofNat (4096 * m)).toNat = 4096 * m := by
    rw [UInt64.toNat_ofNat']
    omega
  have hrsp : (UInt64.ofNat (4096 * m - used argv - 8 * (argv.length + 2))).toNat =
      4096 * m - used argv - 8 * (argv.length + 2) := by
    rw [UInt64.toNat_ofNat']
    omega
  have hrsi : (UInt64.ofNat (4096 * m - used argv - 8 * (argv.length + 1))).toNat =
      4096 * m - used argv - 8 * (argv.length + 2) + 8 := by
    rw [UInt64.toNat_ofNat']
    omega
  have htake := used_take_le argv
  have hused : ∀ j c, argv[j]? = some c → c.stored.length ≤ used (argv.take (j + 1)) := by
    intro j c hj
    rw [used_take_succ hj, CString.stored, List.length_append, List.length_singleton]
    omega
  constructor
  · change (UInt64.ofNat argv.length).toNat = _
    rw [UInt64.toNat_ofNat']
    omega
  · exact hrsi.trans (congrArg (· + 8) hrsp.symm)
  · change UserWord k r (UInt64.ofNat _).toNat _
    rw [hrsp]
    exact h.array 0 _ rfl
  · intro j hj
    change UserWord k r ((UInt64.ofNat _).toNat + 8 * j) _
    rw [hrsi, Nat.add_assoc, show 8 + 8 * j = 8 * (j + 1) by omega]
    refine h.array (j + 1) _ ?_
    rw [List.cons_append, List.getElem?_cons_succ,
      List.getElem?_append_left (by rwa [length_addrs]), addrs, List.getElem?_map,
      List.getElem?_range hj]
    rfl
  · change UserWord k r ((UInt64.ofNat _).toNat + 8 * argv.length) _
    rw [hrsi, Nat.add_assoc, show 8 + 8 * argv.length = 8 * (argv.length + 1) by omega]
    refine h.array (argv.length + 1) _ ?_
    rw [List.cons_append, List.getElem?_cons_succ,
      List.getElem?_append_right (by rw [length_addrs]), length_addrs, Nat.sub_self]
    rfl
  · exact h.args
  · change (UInt64.ofNat (4096 * m)).toNat % 4096 = 0
    omega
  · change (UInt64.ofNat (4096 * m)).toNat - 4096 ≤ (UInt64.ofNat _).toNat
    omega
  · intro j hj
    have := htake (j + 1)
    change (UInt64.ofNat _).toNat + _ ≤ _
    omega
  · intro i j c hij hj
    have h1 := used_take_lt hij hj
    have h2 := htake (j + 1)
    omega
  · intro j c hj
    have h1 := hused j c hj
    have h2 := htake (j + 1)
    change _ ≤ (UInt64.ofNat (4096 * m)).toNat
    omega
  · change (userPage k r ((UInt64.ofNat (4096 * m)).toNat / 4096 - 2)).isSome ∧
      pte k r ((UInt64.ofNat (4096 * m)).toNat / 4096 - 2) &&& PTE_U = 0
    rw [hsz, Nat.mul_div_cancel_left m (by decide), flags_and _ (f := PTE_U) (by decide),
      h.flags _ (by omega) (by omega), if_pos (by omega)]
    exact ⟨(h.spans _).2 (by omega), by decide⟩

/-- **`exec` builds a correct argument stack.** -/
theorem ExecState.exec_argumentStack (hold : Space B s.kmem l s.proc.pgdir T)
    (hok : s.exec B file path argv = .ok (0, s')) :
    ∃ a, ArgumentStack s'.proc s'.kmem argv a := by
  obtain ⟨entry, st, l', -, hproc, hspace, harg⟩ := exec_zero hold hok
  have hfew := hspace.run_le (a := 1) (b := npages st.sz + 2) fun w h1 h2 =>
    (harg.spans w).2 ⟨h1, h2⟩
  rw [hproc]
  exact ⟨_, harg.argumentStack (by omega) s.proc entry path⟩

/-- An argument of `n` bytes. -/
def longArg (n : ℕ) (hn : n + 1 < 2 ^ 31) : CString where
  bytes := List.replicate n 1
  noZero h := absurd (List.eq_of_mem_replicate h) (by decide)
  short := by rwa [List.length_replicate]

/-- A program with two arguments, one of them empty. -/
theorem ExecState.exec_argumentStack_two : ∃ k l r T, Space smallBoot k l r T ∧
    ∀ name tf, ∃ s', (⟨k, ⟨r, 0x3000, name, tf⟩, 0, false, 0⟩ : ExecState).exec smallBoot
        (some sampleElf) [47, 97] [longArg 9 (by decide), longArg 0 (by decide)] = .ok (0, s') ∧
      ∃ a, ArgumentStack s'.proc s'.kmem [longArg 9 (by decide), longArg 0 (by decide)] a := by
  obtain ⟨k, l, r, T, hs, -, hlen⟩ := smallBoot_space
  refine ⟨k, l, r, T, hs, fun name tf => ?_⟩
  have hplan : execPlan (some sampleElf) [longArg 9 (by decide), longArg 0 (by decide)] =
      .run 0x1000 ⟨0x1002, sampleElf.put sampleSegment fun _ => 0, false⟩ := by
    rw [sampleElf_plan]
    rfl
  obtain ⟨s', hok⟩ := exec_run (s := ⟨k, ⟨r, 0x3000, name, tf⟩, 0, false, 0⟩) hs
    (sampleElf_need.trans_le (by omega)) hplan [47, 97]
  exact ⟨s', hok, exec_argumentStack hs hok⟩

/-! ## The image -/

/-- The LOAD segments among the `n` program headers from `off` on.  Offsets in a file are `uint`. -/
def Program.segments (f : Program) : ℕ → UInt32 → List Proghdr
  | 0, _ => []
  | n + 1, off =>
    match f.proghdr off with
    | none => []
    | some ph =>
      if ph.type ≠ ELF_PROG_LOAD then f.segments n (off + 56) else ph :: f.segments n (off + 56)

/-- The LOAD segments of a file, in header order. -/
def Program.loads (f : Program) (elf : Elfhdr) : List Proghdr :=
  f.segments elf.phnum.toNat elf.phoff.toUInt32

/-- The file has a byte for address `a` in the segment. -/
def Proghdr.Covers (ph : Proghdr) (a : ℕ) : Prop :=
  ph.vaddr.toNat ≤ a ∧ a < ph.vaddr.toNat + ph.filesz.toNat

/-- The end of the image. -/
def imageEnd (segs : List Proghdr) : ℕ :=
  segs.foldl (fun e ph => max e (ph.vaddr.toNat + ph.memsz.toNat)) 4096

namespace Program

variable {ph : Proghdr} {a : ℕ}

theorem copy_done {st st' : Loaded} (h : f.copy ph st = .done st') :
    st'.sz = st.sz ∧ st'.data = f.put ph st.data ∧ (ph.filesz.toUInt32 ≠ 0 →
      ph.off.toUInt32.toNat + ph.filesz.toUInt32.toNat ≤ f.bytes.length) := by
  rw [copy] at h
  dsimp only at h
  split_ifs at h with halign hempty hcrash hlong
  · cases h
    refine ⟨rfl, ?_, fun hne => absurd hempty hne⟩
    funext a
    rw [put, hempty, if_neg]
    rintro ⟨h1, h2⟩
    exact absurd h2 (Nat.not_lt.2 h1)
  · cases h
    exact ⟨rfl, rfl, fun _ => Nat.not_lt.1 hlong⟩

/-- A segment that is loaded. -/
theorem segment_done {st st' : Loaded} (h : f.segment ph st = .done st') :
    st'.sz.toNat = max st.sz.toNat (ph.vaddr.toNat + ph.memsz.toNat) ∧
      st'.data = f.put ph st.data ∧ (ph.filesz.toUInt32 ≠ 0 →
        ph.off.toUInt32.toNat + ph.filesz.toUInt32.toNat ≤ f.bytes.length) := by
  rw [segment] at h
  by_cases hbad : ph.memsz < ph.filesz ∨ ph.vaddr + ph.memsz < ph.vaddr ∨
      KERNBASE ≤ ph.vaddr + ph.memsz
  · rw [if_pos hbad] at h
    cases h
  rw [if_neg hbad] at h
  obtain ⟨hsz, hrest⟩ := copy_done h
  refine ⟨?_, hrest⟩
  have hover : ¬ ph.vaddr + ph.memsz < ph.vaddr := fun h1 => hbad (.inr (.inl h1))
  have hadd : (ph.vaddr + ph.memsz).toNat = ph.vaddr.toNat + ph.memsz.toNat := by
    have h1 := ph.vaddr.toNat_lt
    have h2 := ph.memsz.toNat_lt
    rw [UInt64.lt_iff_toNat_lt, UInt64.toNat_add] at hover
    rw [UInt64.toNat_add]
    omega
  rw [hsz]
  dsimp only
  split_ifs with hlt
  · rw [UInt64.lt_iff_toNat_lt] at hlt
    omega
  · rw [UInt64.lt_iff_toNat_lt] at hlt
    omega

/-- **Loading by segments.** -/
theorem layout_done : ∀ (n : ℕ) (off : UInt32) {st st' : Loaded}, f.layout n off st = .done st' →
    st'.sz.toNat = (f.segments n off).foldl (fun e ph => max e (ph.vaddr.toNat + ph.memsz.toNat))
      st.sz.toNat ∧
    st'.data = (f.segments n off).foldl (fun d ph => f.put ph d) st.data ∧
    ∀ ph ∈ f.segments n off, ph.filesz.toUInt32 ≠ 0 →
      ph.off.toUInt32.toNat + ph.filesz.toUInt32.toNat ≤ f.bytes.length
  | 0, _, _, _, h => by
    cases h
    exact ⟨rfl, rfl, fun _ hm => by cases hm⟩
  | n + 1, off, st, st', h => by
    rw [layout] at h
    rw [segments]
    cases hph : f.proghdr off with
    | none =>
      rw [hph] at h
      cases h
    | some ph =>
      rw [hph] at h
      dsimp only at h ⊢
      by_cases htype : ph.type ≠ ELF_PROG_LOAD
      · rw [if_pos htype] at h ⊢
        exact layout_done n _ h
      rw [if_neg htype] at h ⊢
      cases hseg : f.segment ph st with
      | bad | crash =>
        rw [hseg] at h
        cases h
      | done st₁ =>
        rw [hseg] at h
        obtain ⟨hsz, hdata, hin⟩ := layout_done n _ h
        obtain ⟨hsz₁, hdata₁, hin₁⟩ := segment_done hseg
        rw [List.foldl_cons, List.foldl_cons, ← hsz₁, ← hdata₁]
        refine ⟨hsz, hdata, fun q hq => ?_⟩
        rcases List.mem_cons.1 hq with rfl | hq
        · exact hin₁
        · exact hin q hq

theorem put_of_not_covers (hsz : ph.filesz.toNat < 2 ^ 32) (h : ¬ ph.Covers a) (data : ℕ → UInt8) :
    f.put ph data a = data a := by
  rw [put, if_neg]
  rwa [UInt64.toNat_toUInt32, Nat.mod_eq_of_lt hsz]

/-- Segments that do not cover an address leave the byte there. -/
theorem foldl_put_of_not_covers : ∀ {segs : List Proghdr} (data : ℕ → UInt8),
    (∀ ph ∈ segs, ph.filesz.toNat < 2 ^ 32) → (∀ ph ∈ segs, ¬ ph.Covers a) →
    segs.foldl (fun d ph => f.put ph d) data a = data a
  | [], _, _, _ => rfl
  | ph :: segs, data, hsz, h => by
    rw [List.foldl_cons, foldl_put_of_not_covers _ (fun q hq => hsz q (.tail _ hq)) fun q hq =>
      h q (.tail _ hq), put_of_not_covers (hsz ph (.head _)) (h ph (.head _))]

/-- A byte of the last segment that covers its address. -/
theorem load_covered {elf : Elfhdr} {st : Loaded} (h : f.load elf = .done st)
    (hseg : ∀ ph ∈ f.loads elf, ph.off.toNat < 2 ^ 32 ∧ ph.filesz.toNat < 2 ^ 32)
    {before after : List Proghdr} (hsplit : f.loads elf = before ++ ph :: after)
    (hcov : ph.Covers a) (hlast : ∀ q ∈ after, ¬ q.Covers a) :
    f.bytes[ph.off.toNat + (a - ph.vaddr.toNat)]? = some (st.data a) := by
  obtain ⟨-, hdata, hin⟩ := layout_done _ _ h
  have hmem : ph ∈ f.loads elf := by
    rw [hsplit]
    exact List.mem_append_right _ (.head _)
  obtain ⟨hoff, hfile⟩ := hseg ph hmem
  have hoff' : ph.off.toUInt32.toNat = ph.off.toNat := by
    rw [UInt64.toNat_toUInt32, Nat.mod_eq_of_lt hoff]
  have hfile' : ph.filesz.toUInt32.toNat = ph.filesz.toNat := by
    rw [UInt64.toNat_toUInt32, Nat.mod_eq_of_lt hfile]
  have hcov' := hcov
  rw [Proghdr.Covers, ← hfile'] at hcov'
  have hlong := hin ph hmem fun h0 => by
    rw [h0] at hcov'
    exact absurd hcov'.2 (Nat.not_lt.2 hcov'.1)
  change _ = (f.loads elf).foldl (fun d ph => f.put ph d) _ at hdata
  rw [hdata, hsplit, List.foldl_append, List.foldl_cons, foldl_put_of_not_covers _
    (fun q hq => (hseg q (hsplit ▸ List.mem_append_right _ (.tail _ hq))).2) hlast, put,
    if_pos hcov', hoff']
  rw [Proghdr.Covers] at hcov
  rw [List.getD_eq_getElem?_getD, List.getElem?_eq_getElem (by omega)]
  rfl

end Program

/-- The memory of a program that starts. -/
theorem ExecState.exec_loaded (hold : Space B s.kmem l s.proc.pgdir T) {elf : Elfhdr}
    (hf : f.elfhdr = some elf) (hok : s.exec B (some f) path argv = .ok (0, s')) :
    ∃ st, f.load elf = .done st ∧ s'.proc.sz.toNat = 4096 * (npages st.sz + 2) ∧
      Argued s'.kmem s'.proc.pgdir (npages st.sz + 2) st.data argv := by
  obtain ⟨entry, st, l', hplan, hproc, hspace, harg⟩ := exec_zero hold hok
  refine ⟨st, ?_, ?_, harg⟩
  · rw [execPlan, filePlan, hf] at hplan
    dsimp only at hplan
    split_ifs at hplan with hmagic
    cases hl : f.load elf with
    | bad | crash =>
      rw [hl] at hplan
      cases hplan
    | done st' =>
      rw [hl] at hplan
      change stackPlan _ st' argv = _ at hplan
      rw [stackPlan] at hplan
      split at hplan
      · cases hplan
      · cases hplan
      · split_ifs at hplan
        cases hplan
        rfl
  · have hfew := hspace.run_le (a := 1) (b := npages st.sz + 2) fun w h1 h2 =>
      (harg.spans w).2 ⟨h1, h2⟩
    rw [hproc]
    change (UInt64.ofNat _).toNat = _
    rw [UInt64.toNat_ofNat']
    omega

/-- **`exec` loads the image that the file describes.** -/
theorem ExecState.exec_image (hold : Space B s.kmem l s.proc.pgdir T) {elf : Elfhdr}
    (hf : f.elfhdr = some elf)
    (hseg : ∀ ph ∈ f.loads elf, ph.off.toNat < 2 ^ 32 ∧ ph.filesz.toNat < 2 ^ 32)
    (hok : s.exec B (some f) path argv = .ok (0, s')) :
    s'.proc.sz.toNat = (imageEnd (f.loads elf) + 4095) / 4096 * 4096 + 8192 ∧
    ∀ a, 4096 ≤ a → a < s'.proc.sz.toNat - 8192 →
      pteFlags (pte s'.kmem s'.proc.pgdir (a / 4096)) = PTE_P ||| PTE_W ||| PTE_U ∧
      (∀ before ph after, f.loads elf = before ++ ph :: after → ph.Covers a →
        (∀ q ∈ after, ¬ q.Covers a) →
        ubyte s'.kmem s'.proc.pgdir a = f.bytes[ph.off.toNat + (a - ph.vaddr.toNat)]?) ∧
      ((∀ ph ∈ f.loads elf, ¬ ph.Covers a) → ubyte s'.kmem s'.proc.pgdir a = some 0) := by
  obtain ⟨st, hload, hsz', harg⟩ := exec_loaded hold hf hok
  obtain ⟨hsz, hdata, -⟩ := Program.layout_done _ _ hload
  have hend : st.sz.toNat = imageEnd (f.loads elf) := hsz
  rw [hsz']
  refine ⟨?_, fun a ha1 ha2 => ⟨?_, ?_, ?_⟩⟩
  · rw [npages, hend]
    omega
  · rw [harg.flags _ (by omega) (by omega), if_neg (by omega)]
    decide
  · intro before ph after hsplit hcov hlast
    rw [harg.data a ha1 (by omega), Program.load_covered hload hseg hsplit hcov hlast]
  · intro hnone
    rw [harg.data a ha1 (by omega), hdata]
    change some ((f.loads elf).foldl (fun d ph => f.put ph d) _ a) = _
    rw [Program.foldl_put_of_not_covers _ (fun q hq => (hseg q hq).2) hnone]
    rfl

/-- The bytes of a segment are those that `readi` finds in the file. -/
theorem ExecState.exec_readi {F : Prop} {sb : Superblock} {d : Disk} {ip : Inode} (dev : Devsw)
    (h : Owned F sb d) (hi : ip.inum < sb.ninodes) (ht : ip.di.type ≠ 0)
    (hdi : dinodeAt sb d ip.inum = ip.di) (hdev : ip.di.type ≠ T_DEV)
    (hold : Space B s.kmem l s.proc.pgdir T) {elf : Elfhdr} (hp : f = .ofInode ip.di d)
    (hf : f.elfhdr = some elf)
    (hseg : ∀ ph ∈ f.loads elf, ph.off.toNat < 2 ^ 32 ∧ ph.filesz.toNat < 2 ^ 32)
    (hok : s.exec B (some f) path argv = .ok (0, s')) {a : ℕ} (ha : 4096 ≤ a)
    (hsz : a < s'.proc.sz.toNat - 8192) {before after : List Proghdr} {ph : Proghdr}
    (hsplit : f.loads elf = before ++ ph :: after) (hcov : ph.Covers a)
    (hlast : ∀ q ∈ after, ¬ q.Covers a) :
    ∃ x, readi sb dev d ip (ph.off.toNat + (a - ph.vaddr.toNat)) 1 = .ok (some [x], ip, d) ∧
      ubyte s'.kmem s'.proc.pgdir a = some x := by
  obtain ⟨st, hload, hsz', harg⟩ := exec_loaded hold hf hok
  refine ⟨st.data a, ?_, harg.data a ha (by omega)⟩
  obtain ⟨hlt, hx⟩ := List.getElem?_eq_some_iff.1
    (Program.load_covered hload hseg hsplit hcov hlast)
  have hsize := f.size_lt
  generalize ph.off.toNat + (a - ph.vaddr.toNat) = o at hlt hx
  have ho : (UInt32.ofNat o).toNat = o := by
    rw [UInt32.toNat_ofNat']
    omega
  have hread := readi_program dev h hi ht hdi hdev (.ofNat o) 1
  rw [ho, ← hp, Program.readi_eq, ho, if_pos ⟨hlt.le, by simp; omega⟩,
    ← List.getElem_cons_drop hlt, hx] at hread
  exact hread

theorem ExecState.exec_image_sample : ∃ k l r T, Space smallBoot k l r T ∧
    ∀ name tf, ∃ s', (⟨k, ⟨r, 0x3000, name, tf⟩, 0, false, 0⟩ : ExecState).exec smallBoot
        (some sampleElf) [47, 97] [] = .ok (0, s') ∧ s'.proc.sz = 0x4000 ∧
      ubyte s'.kmem s'.proc.pgdir 0x1000 = some 42 ∧ ubyte s'.kmem s'.proc.pgdir 0x1001 = some 0 := by
  obtain ⟨k, l, r, T, hs, -, hlen⟩ := smallBoot_space
  refine ⟨k, l, r, T, hs, fun name tf => ?_⟩
  obtain ⟨s', hok⟩ := sampleElf_runs (s := ⟨k, ⟨r, 0x3000, name, tf⟩, 0, false, 0⟩) hs hlen [47, 97]
  have hloads : sampleElf.loads sampleElfhdr = [sampleSegment] := by
    change sampleElf.segments 1 64 = _
    rw [Program.segments, sampleElf_proghdr]
    rfl
  obtain ⟨hsz, himg⟩ := exec_image hs sampleElf_elfhdr (by rw [hloads]; decide) hok
  rw [hloads] at hsz himg
  have hsz' : s'.proc.sz.toNat = 0x4000 := hsz
  obtain ⟨-, hbyte, -⟩ := himg 0x1000 (by decide) (by omega)
  obtain ⟨-, -, hrest⟩ := himg 0x1001 (by decide) (by omega)
  refine ⟨s', hok, UInt64.toNat_inj.1 hsz', ?_, hrest ?_⟩
  · rw [hbyte [] sampleSegment [] rfl ⟨by decide, by decide⟩ (by simp)]
    decide +kernel
  · rintro ph hph ⟨-, h2⟩
    rw [List.mem_singleton.1 hph] at h2
    exact absurd h2 (by decide)

/-! ## A call that fails -/

/-- The caller in state `s` with the free pages `l` is as it was, and holds nothing of `file`. -/
structure Unharmed (B : Boot) (l : List UInt64) (file : Option Program) (s s' : ExecState) : Prop where
  proc : s'.proc = s.proc
  image : ∀ v, image s'.kmem s.proc.pgdir v = image s.kmem s.proc.pgdir v
  ref : s'.ref = s.ref
  unlocked : file.isSome → s'.locked = false
  outstanding : s'.outstanding = s.outstanding
  pages : ∃ l', Pool B s'.kmem l' ∧ ∀ p, p ∈ l' ↔ p ∈ l

/-- The strings fit on the stack of the program and the array of pointers does not, and the
registers that are set in between had other values. -/
def Spoils (file : Option Program) (argv : List CString) (tf : Trapframe) : Prop :=
  ∃ st, execPlan file argv = .late st ∧ ¬ (tf.rdi = .ofNat argv.length ∧
    tf.rsi = .ofNat (4096 * (npages st.sz + 2) - used argv - 8 * (argv.length + 1)))

/-- The pages of an address space are those of before. -/
theorem Kmem.Restored.image {k₀ : Kmem} (hold : Space B k₀ l r T) (h : Restored B k₀ l k) (v : ℕ) :
    image k r v = image k₀ r v := by
  have hapart : Apart k₀ r fun q => q ∈ l ∨ q = p2v 0 := by
    rintro e x p he hn (hl | rfl)
    · exact hold.apart e x p he hn hl
    · exact zero_not_valid (hold.whole.valid he hn)
  exact (hapart.same fun q hq => h.mem q (fun hl => hq (.inl hl)) fun h0 => hq (.inr h0)).2.2 v

/-- **A failed `exec` leaves the caller as it was**, unless it spoils the registers.  The converse
needs that the call gets as far as that. -/
theorem ExecState.exec_unharmed (hold : Space B s.kmem l s.proc.pgdir T) (file : Option Program)
    (path : List UInt8) (argv : List CString) :
    (¬ Spoils file argv s.proc.tf →
      ∀ s', s.exec B file path argv = .ok (-1, s') → Unharmed B l file s s') ∧
    (execNeed file ≤ l.length →
      (∀ s', s.exec B file path argv = .ok (-1, s') → Unharmed B l file s s') →
      ¬ Spoils file argv s.proc.tf) := by
  constructor
  · intro hregs s' hok
    have hspec := exec_spec hold file path argv
    rw [hok] at hspec
    obtain ⟨-, -, hout⟩ := hspec
    have hunlocked : file.isSome → (s.locked && file.isNone) = false := by
      intro hsome
      rw [Option.isNone_eq_false_iff.2 hsome, Bool.and_false]
    cases hplan : execPlan file argv with
    | fail =>
      rw [hplan] at hout
      obtain ⟨-, k, rfl, hres⟩ := hout
      exact ⟨rfl, hres.image hold, rfl, hunlocked, rfl, hres.pool⟩
    | crash e =>
      rw [hplan] at hout
      exact hout.elim
    | late st =>
      rw [hplan] at hout
      obtain ⟨-, k, rfl, hres⟩ := hout
      have hsame := not_not.1 fun hne => hregs ⟨st, hplan, hne⟩
      refine ⟨?_, hres.image hold, rfl, hunlocked, rfl, hres.pool⟩
      change s.proc.spoiled _ argv = s.proc
      rw [ExecProc.spoiled, ← hsame.1, ← hsame.2]
    | run entry st =>
      rw [hplan] at hout
      exact absurd hout.1 (by decide)
  · rintro hneed hall ⟨st, hplan, hne⟩
    obtain ⟨s', hok, hproc⟩ := exec_late hold hneed hplan path
    have htf := congrArg ExecProc.tf (hproc.symm.trans (hall s' hok).proc)
    exact hne ⟨(congrArg Trapframe.rdi htf).symm, (congrArg Trapframe.rsi htf).symm⟩

theorem used_longArg (n : ℕ) (hn : n + 1 < 2 ^ 31) : used [longArg n hn] = (n + 8) / 8 * 8 := by
  rw [used_singleton, longArg, List.length_replicate]

theorem place_longArg (top n : ℕ) (hn : n + 1 < 2 ^ 31) : place top [longArg n hn] [] =
    if (n + 8) / 8 * 8 ≤ 4096 then .fits else if (n + 8) / 8 * 8 ≤ top then .bad else .crash := by
  rw [place, if_neg (by decide), List.nil_append, used_longArg, place]

/-- An argument that is too long for the stack. -/
theorem ExecState.exec_unharmed_long : ∃ k l r T, Space smallBoot k l r T ∧
    ∀ name tf, ∃ s', (⟨k, ⟨r, 0x3000, name, tf⟩, 0, false, 0⟩ : ExecState).exec smallBoot
        (some sampleElf) [47, 97] [longArg 5000 (by decide)] = .ok (-1, s') ∧
      Unharmed smallBoot l (some sampleElf) ⟨k, ⟨r, 0x3000, name, tf⟩, 0, false, 0⟩ s' := by
  obtain ⟨k, l, r, T, hs, -, hlen⟩ := smallBoot_space
  have hplan : execPlan (some sampleElf) [longArg 5000 (by decide)] = .fail := by
    rw [sampleElf_plan, place_longArg]
    rfl
  have hneed := sampleElf_need
  refine ⟨k, l, r, T, hs, fun name tf => ?_⟩
  obtain ⟨s', hok⟩ := exec_fail (s := ⟨k, ⟨r, 0x3000, name, tf⟩, 0, false, 0⟩) hs
    (hneed.trans_le (by omega)) hplan [47, 97]
  refine ⟨s', hok, (exec_unharmed hs _ _ _).1 ?_ s' hok⟩
  rintro ⟨st, hlate, -⟩
  rw [hplan] at hlate
  cases hlate

/-- The string fills the stack page: the call fails, and `rdi` is the number of arguments. -/
theorem ExecState.exec_spoils : ∃ k l r T, Space smallBoot k l r T ∧
    ∀ name tf, tf.rdi = 0 → ∃ s', (⟨k, ⟨r, 0x3000, name, tf⟩, 0, false, 0⟩ : ExecState).exec smallBoot
        (some sampleElf) [47, 97] [longArg 4088 (by decide)] = .ok (-1, s') ∧ s'.proc.tf.rdi = 1 ∧
      ¬ Unharmed smallBoot l (some sampleElf) ⟨k, ⟨r, 0x3000, name, tf⟩, 0, false, 0⟩ s' := by
  obtain ⟨k, l, r, T, hs, -, hlen⟩ := smallBoot_space
  have hplan : execPlan (some sampleElf) [longArg 4088 (by decide)] =
      .late ⟨0x1002, sampleElf.put sampleSegment fun _ => 0, false⟩ := by
    rw [sampleElf_plan, place_longArg, used_longArg]
    rfl
  have hneed := sampleElf_need
  refine ⟨k, l, r, T, hs, fun name tf htf => ?_⟩
  obtain ⟨s', hok, hproc⟩ := exec_late (s := ⟨k, ⟨r, 0x3000, name, tf⟩, 0, false, 0⟩) hs
    (hneed.trans_le (by omega)) hplan [47, 97]
  have hrdi : s'.proc.tf.rdi = 1 := by rw [hproc]; rfl
  refine ⟨s', hok, hrdi, fun h => ?_⟩
  rw [h.proc, htf] at hrdi
  exact absurd hrdi (by decide)

end Xv6

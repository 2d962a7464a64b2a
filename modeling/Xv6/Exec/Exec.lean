/-
  `exec` of `exec.c`.

  The page table of the new program is built out of free pages, so that the
  caller keeps everything until the commit.  `execPlan` says what becomes of a
  file and an argument vector, and `exec_spec` that `exec` carries this out,
  unless it runs out of pages.

  Of the file system there are the contents of the file that the path names,
  lock and reference count of its inode, and `log.outstanding`.  `switchuvm`
  loads a register of the processor and is not in the model.  The strings are
  read in the old address space, which does not change until the commit.
-/
import Xv6.Exec.Args
import Xv6.Vm.Args
import Xv6.Vm.Copyuvm

namespace Xv6

open Bytes Fallible

/-- What `exec` changes in `struct proc`. -/
structure ExecProc where
  pgdir : UInt64
  sz : UInt64
  name : Fin 16 → UInt8
  tf : Trapframe

/-- Memory, the calling process, the inode of the file and the log. -/
structure ExecState where
  kmem : Kmem
  proc : ExecProc
  ref : ℕ
  locked : Bool
  outstanding : ℕ

/-- The loop of `safestrcpy` with `n` bytes to go, at index `i`; `src` ends with a zero. -/
def safestrcpyLoop {m : ℕ} : ℕ → ℕ → List UInt8 → (Fin m → UInt8) → Fin m → UInt8
  | 0, i, _, dst => setByte dst i 0
  | _ + 1, i, [], dst => setByte (setByte dst i 0) (i + 1) 0
  | n + 1, i, c :: src, dst => safestrcpyLoop n (i + 1) src (setByte dst i c)

def safestrcpy {m : ℕ} (dst : Fin m → UInt8) (src : List UInt8) : Fin m → UInt8 :=
  if m = 0 then dst else safestrcpyLoop (m - 1) 0 src dst

/-- The loop over the path: what follows the last slash. -/
def lastName (last : List UInt8) : List UInt8 → List UInt8
  | [] => last
  | c :: s => if c = 47 then lastName s s else lastName last s

/-- The bytes of an array of words. -/
def words (ws : List UInt64) : List UInt8 :=
  ws.flatMap fun w => (List.range 8).map fun i => UInt8.ofNat (w.toNat / 256 ^ i)

namespace ExecState

def beginOp (s : ExecState) : ExecState := { s with outstanding := s.outstanding + 1 }

def endOp (s : ExecState) : ExecState := { s with outstanding := s.outstanding - 1 }

/-- The reference that `namei` returns. -/
def namei (s : ExecState) : ExecState := { s with ref := s.ref + 1 }

def ilock (s : ExecState) : ExecState := { s with locked := true }

def iunlockput (s : ExecState) : ExecState := { s with locked := false, ref := s.ref - 1 }

/-- The code after the label `bad`; `ip` says whether the inode is held. -/
def bad (B : Boot) (pgdir : UInt64) (ip : Bool) (s : ExecState) :
    Except Crash (Int32 × ExecState) := do
  let kmem ← if pgdir ≠ 0 then s.kmem.freevm B pgdir else .ok s.kmem
  let s := { s with kmem := kmem }
  .ok (-1, if ip then s.iunlockput.endOp else s)

/-- The commit to the new image. -/
def commit (B : Boot) (entry pgdir sz sp : UInt64) (path : List UInt8) (s : ExecState) :
    Except Crash (Int32 × ExecState) := do
  let oldpgdir := s.proc.pgdir
  let proc :=
    { name := safestrcpy s.proc.name (lastName path path)
      pgdir := pgdir
      sz := sz
      tf := { s.proc.tf with rip := entry, rcx := entry, rsp := sp } }
  let kmem ← s.kmem.freevm B oldpgdir
  .ok (0, { s with kmem := kmem, proc := proc })

/-- The arguments, and then the commit. -/
def execArgs (B : Boot) (entry pgdir sz : UInt64) (path : List UInt8) (argv : List CString)
    (s : ExecState) : Except Crash (Int32 × ExecState) := do
  match ← s.kmem.pushArgs pgdir argv sz [] with
  | (none, k) => bad B pgdir false { s with kmem := k }
  | (some (sp, us), k) =>
    let argc := UInt64.ofNat us.length
    let tf := { s.proc.tf with rdi := argc, rsi := sp - (argc + 1) * 8 }
    let s := { s with kmem := k, proc := { s.proc with tf := tf } }
    let sp := sp - (1 + argc + 1) * 8
    let (res, k) ← s.kmem.copyout pgdir sp (words (0xFFFFFFFFFFFFFFFF :: us ++ [0]))
    let s := { s with kmem := k }
    if res < 0 then bad B pgdir false s else commit B entry pgdir sz sp path s

/-- From the allocation of the stack on. -/
def execStack (B : Boot) (entry pgdir sz : UInt64) (path : List UInt8) (argv : List CString)
    (s : ExecState) : Except Crash (Int32 × ExecState) := do
  let sz := pgroundup sz
  let (sz, k) ← s.kmem.allocuvm B pgdir sz (sz + 2 * PGSIZE)
  if sz = 0 then bad B pgdir false { s with kmem := k }
  else do
    let k ← k.clearpteu pgdir (sz - 2 * PGSIZE)
    execArgs B entry pgdir sz path argv { s with kmem := k }

/-- With the inode locked. -/
def execFile (B : Boot) (f : Program) (path : List UInt8) (argv : List CString) (s : ExecState) :
    Except Crash (Int32 × ExecState) :=
  match f.elfhdr with
  | none => bad B 0 true s
  | some elf =>
    if elf.magic ≠ ELF_MAGIC then bad B 0 true s
    else do
      let (pgdir, k) ← s.kmem.setupkvm B
      if pgdir = 0 then bad B 0 true { s with kmem := k }
      else do
        match ← k.loadLoop B f pgdir elf.phnum.toNat elf.phoff.toUInt32 PGSIZE with
        | (none, k) => bad B pgdir true { s with kmem := k }
        | (some sz, k) =>
          execStack B elf.entry pgdir sz path argv { s with kmem := k }.iunlockput.endOp

/-- `exec`, where `file` is what `path` names. -/
def exec (B : Boot) (file : Option Program) (path : List UInt8) (argv : List CString)
    (s : ExecState) : Except Crash (Int32 × ExecState) :=
  let s := s.beginOp
  match file with
  | none => .ok (-1, s.endOp)
  | some f => execFile B f path argv s.namei.ilock

end ExecState

/-! ## What becomes of a file and an argument vector -/

/-- The ways in which `exec` ends: a return of -1 before the registers are touched, a panic or a
null entry, a return of -1 after that, or the new program. -/
inductive Plan
  | fail
  | crash (e : Crash)
  | late (st : Loaded)
  | run (entry : UInt64) (st : Loaded)

/-- The program headers of a file. -/
def Program.load (f : Program) (elf : Elfhdr) : Layout :=
  f.layout elf.phnum.toNat elf.phoff.toUInt32 .start

/-- From the stack on. -/
def stackPlan (entry : UInt64) (st : Loaded) (argv : List CString) : Plan :=
  match place (4096 * (npages st.sz + 2)) argv [] with
  | .bad => .fail
  | .crash => .crash .nullPte
  | .fits => if used argv + 8 * (argv.length + 2) ≤ 4096 then .run entry st else .late st

def filePlan (f : Program) (argv : List CString) : Plan :=
  match f.elfhdr with
  | none => .fail
  | some elf =>
    if elf.magic ≠ ELF_MAGIC then .fail
    else match f.load elf with
      | .bad _ => .fail
      | .crash _ => .crash .loaduvmExist
      | .done st => stackPlan elf.entry st argv

def execPlan (file : Option Program) (argv : List CString) : Plan :=
  match file with
  | none => .fail
  | some f => filePlan f argv

/-- A number of pages with which `exec` does not run out. -/
def execNeed (file : Option Program) : ℕ :=
  match file with
  | none => 0
  | some f =>
    match f.elfhdr with
    | none => 0
    | some elf => 1 + (4 * (npages (f.load elf).state.sz - 1) + 8)

theorem length_words (ws : List UInt64) : (words ws).length = 8 * ws.length := by
  induction ws with
  | nil => rfl
  | cons w ws ih =>
    rw [words, List.flatMap_cons, List.length_append, List.length_cons]
    rw [words] at ih
    simp only [ih, List.length_map, List.length_range]
    omega

theorem getElem?_words : ∀ (ws : List UInt64) (i : ℕ) {j : ℕ}, j < 8 →
    (words ws)[8 * i + j]? = ws[i]?.map fun w => UInt8.ofNat (w.toNat / 256 ^ j)
  | [], _, _, _ => rfl
  | w :: ws, 0, j, hj => by
    rw [words, List.flatMap_cons, List.getElem?_append_left (by simpa using hj)]
    simp [hj]
  | w :: ws, i + 1, j, hj => by
    have ih := getElem?_words ws i hj
    rw [words, List.flatMap_cons, List.getElem?_append_right (by simp; omega)]
    rw [List.length_map, List.length_range, show 8 * (i + 1) + j - 8 = 8 * i + j by omega]
    exact ih

namespace Kmem

variable {B : Boot} {k₀ k k' : Kmem} {l₀ l : List UInt64} {r : UInt64} {z : Bool} {m : ℕ}
  {data : ℕ → UInt8} {argv : List CString}

/-- The eight bytes at the user address `a` are the word `w`. -/
def UserWord (k : Kmem) (r : UInt64) (a : ℕ) (w : UInt64) : Prop :=
  ∀ j < 8, ubyte k r (a + j) = some (UInt8.ofNat (w.toNat / 256 ^ j))

/-- The stack when `exec` returns: the strings, and below them the fake return address and the array
of pointers. -/
structure Argued (k : Kmem) (r : UInt64) (m : ℕ) (data : ℕ → UInt8) (argv : List CString) : Prop
    extends Stack k r m data argv where
  room : used argv + 8 * (argv.length + 2) ≤ 4096
  array : ∀ i w, ((0xFFFFFFFFFFFFFFFF :: addrs m argv ++ [0] : List UInt64))[i]? = some w →
    UserWord k r (4096 * m - used argv - 8 * (argv.length + 2) + 8 * i) w

theorem Argued.congr (h : Argued k r m data argv) (hpte : ∀ v, pte k' r v = pte k r v)
    (himg : ∀ v, image k' r v = image k r v) : Argued k' r m data argv := by
  have hbyte : ∀ a, ubyte k' r a = ubyte k r a := fun a => by rw [ubyte, ubyte, himg]
  refine ⟨⟨h.three, fun v => ?_, fun v h1 h2 => ?_, fun a h1 h2 => ?_, h.fits, fun j s hj i hi => ?_⟩,
    h.room, fun i w hi j hj => ?_⟩
  · rw [userPage_congr (hpte v)]
    exact h.spans v
  · rw [hpte]
    exact h.flags v h1 h2
  · rw [hbyte]
    exact h.data a h1 h2
  · rw [hbyte]
    exact h.args j s hj i hi
  · rw [hbyte]
    exact h.array i w hi j hj

/-- The free pages are those of before, and other pages are as they were, but for physical
page 0. -/
structure Restored (B : Boot) (k₀ : Kmem) (l : List UInt64) (k : Kmem) : Prop where
  pool : ∃ l', Pool B k l' ∧ ∀ p, p ∈ l' ↔ p ∈ l
  mem : ∀ q, q ∉ l → q ≠ p2v 0 → k.mem q = k₀.mem q

end Kmem

open Kmem

variable {B : Boot} {k₀ k : Kmem} {l l' : List UInt64} {r : UInt64} {z : Bool} {m : ℕ}
  {data : ℕ → UInt8} {argv : List CString} {s s' : ExecState} {T : UInt64 → Prop}

/-- **A page table under construction is given up.** -/
theorem ExecState.bad_spec (h : Building B k₀ l r z k l') (hs : s.kmem = k) (ip : Bool) :
    ∃ k', s.bad B r ip = .ok (-1, if ip then { s with kmem := k' }.iunlockput.endOp
      else { s with kmem := k' }) ∧ Restored B k₀ l k' := by
  have hr : r ≠ 0 := (h.space.valid r h.space.tree.root.1).ne_zero
  obtain ⟨k', l'', hfree, hpool, hl, hmem⟩ := h.space.freevm
  refine ⟨k', ?_, ⟨l'', hpool, hl⟩, fun q hq h0 => ?_⟩
  · rw [bad, if_pos hr, hs, hfree]
    rfl
  · rw [hmem q hq, h.mem q hq fun he => absurd he h0]

/-- The process after a successful `exec`. -/
def ExecProc.next (p : ExecProc) (entry r : UInt64) (m : ℕ) (path : List UInt8)
    (argv : List CString) : ExecProc where
  pgdir := r
  sz := .ofNat (4096 * m)
  name := safestrcpy p.name (lastName path path)
  tf := { p.tf with
    rdi := .ofNat argv.length
    rsi := .ofNat (4096 * m - used argv - 8 * (argv.length + 1))
    rip := entry
    rcx := entry
    rsp := .ofNat (4096 * m - used argv - 8 * (argv.length + 2)) }

/-- The process when the array does not fit. -/
def ExecProc.spoiled (p : ExecProc) (m : ℕ) (argv : List CString) : ExecProc :=
  { p with tf := { p.tf with
    rdi := .ofNat argv.length
    rsi := .ofNat (4096 * m - used argv - 8 * (argv.length + 1)) } }

theorem length_le_used : ∀ argv : List CString, 8 * argv.length ≤ used argv
  | [] => Nat.zero_le _
  | s :: argv => by
    have h1 := length_le_used argv
    have h2 := used_singleton s
    rw [← List.singleton_append, used_append, List.length_append, List.length_singleton]
    omega

/-- The addresses of the array do not wrap around. -/
theorem sub_words {sp : UInt64} {u n c : ℕ} (hsp : sp.toNat + u = 4096 * m) (hm : m ≤ 57345)
    (hle : u + 8 * (n + c) ≤ 4096 * m) :
    sp - (UInt64.ofNat n + UInt64.ofNat c) * 8 = .ofNat (4096 * m - u - 8 * (n + c)) := by
  have hadd : ((UInt64.ofNat n + UInt64.ofNat c) * 8).toNat = 8 * (n + c) := by
    rw [UInt64.toNat_mul, UInt64.toNat_add, UInt64.toNat_ofNat', UInt64.toNat_ofNat',
      show (8 : UInt64).toNat = 8 from rfl]
    omega
  rw [← UInt64.toNat_inj, UInt64.toNat_sub_of_le _ _ (UInt64.le_iff_toNat_le.2 (by omega)), hadd,
    UInt64.toNat_ofNat']
  omega

/-- **The arguments and the commit.** -/
theorem ExecState.execArgs_spec (hold : Space B k₀ l s.proc.pgdir T) (entry : UInt64)
    {sz : UInt64} (path : List UInt8) (argv : List CString) (h : Stacked B k₀ l r z m data [] k l') (hs : s.kmem = k)
    (hsz : sz.toNat = 4096 * m) :
    match place (4096 * m) argv [] with
    | .bad => ∃ k', s.execArgs B entry r sz path argv = .ok (-1, { s with kmem := k' }) ∧
        Restored B k₀ l k'
    | .crash => s.execArgs B entry r sz path argv = .error .nullPte
    | .fits =>
      if used argv + 8 * (argv.length + 2) ≤ 4096 then
        ∃ k' l'', s.execArgs B entry r sz path argv =
            .ok (0, { s with kmem := k', proc := s.proc.next entry r m path argv }) ∧
          Space B k' l'' r T ∧ Argued k' r m data argv ∧
          ∀ q, ¬ T q → q ≠ p2v 0 → k'.mem q = k₀.mem q
      else ∃ k', s.execArgs B entry r sz path argv =
          .ok (-1, { s with kmem := k', proc := s.proc.spoiled m argv }) ∧ Restored B k₀ l k' := by
  have hempty : sz.toNat + used [] = 4096 * m := hsz
  have hpush := h.pushArgs argv hempty
  rw [show addrs m [] = [] from rfl] at hpush
  rw [execArgs, hs]
  cases hp : place (4096 * m) argv [] with
  | bad =>
    rw [hp] at hpush
    obtain ⟨k₁, hok, hb⟩ := hpush
    obtain ⟨k', hbad, hres⟩ := bad_spec (s := { s with kmem := k₁ }) hb rfl false
    refine ⟨k', ?_, hres⟩
    rw [hok]
    exact hbad
  | crash =>
    rw [hp] at hpush
    change k.pushArgs r argv sz [] = _ at hpush
    change (k.pushArgs r argv sz [] >>= _) = _
    rw [hpush]
    rfl
  | fits =>
    rw [hp] at hpush
    obtain ⟨k₁, sp, hok, hsp, hst⟩ := hpush
    rw [List.nil_append] at hok hsp hst
    have hfew := hst.few
    have hthree := hst.three
    have hfits := hst.fits
    have hlen := length_le_used argv
    have hrsi : sp - (UInt64.ofNat argv.length + 1) * 8 =
        .ofNat (4096 * m - used argv - 8 * (argv.length + 1)) :=
      sub_words (c := 1) hsp hfew (by omega)
    have hrsp : sp - (1 + UInt64.ofNat argv.length + 1) * 8 =
        .ofNat (4096 * m - used argv - 8 * (argv.length + 2)) := by
      rw [UInt64.add_comm 1, UInt64.add_assoc]
      exact sub_words (c := 2) hsp hfew (by omega)
    have hva : (UInt64.ofNat (4096 * m - used argv - 8 * (argv.length + 2))).toNat +
        (used argv + 8 * (argv.length + 2)) = 4096 * m := by
      rw [UInt64.toNat_ofNat']
      omega
    have hbuf : (words (0xFFFFFFFFFFFFFFFF :: addrs m argv ++ [0])).length =
        8 * (argv.length + 2) := by
      rw [length_words, List.length_append, List.length_cons, length_addrs, List.length_singleton]
    have hne : words (0xFFFFFFFFFFFFFFFF :: addrs m argv ++ [0]) ≠ [] :=
      List.ne_nil_of_length_pos (by omega)
    dsimp only
    rw [hok]
    dsimp only [bind, Except.bind]
    rw [length_addrs, hrsi, hrsp]
    by_cases hroom : used argv + 8 * (argv.length + 2) ≤ 4096
    · rw [if_pos hroom]
      obtain ⟨k₂, hcopy, hst₂, hbytes⟩ := hst.copyout hva hroom (by omega) hne
      obtain ⟨k', l'', hfree, hs', hmem', hnode, hpte, himg⟩ := hold.replace hst₂.space
        fun q hT hq => hst₂.mem q hq fun he => absurd (he ▸ hold.valid q hT) zero_not_valid
      refine ⟨k', l'', ?_, hs', ?_, fun q hq h0 => ?_⟩
      · have hsz' : UInt64.ofNat (4096 * m) = sz := by rw [← hsz, UInt64.ofNat_toNat]
        rw [hcopy, ExecProc.next, hsz']
        change commit B entry r sz _ path _ = _
        rw [commit]
        change (k₂.freevm B s.proc.pgdir >>= _) = _
        rw [hfree]
        rfl
      · refine Argued.congr (k := k₂) ⟨hst₂.toStack, hroom, fun i w hi j hj => ?_⟩ hpte himg
        have hlt : i < argv.length + 2 := by
          have := (List.getElem?_eq_some_iff.1 hi).1
          rwa [List.length_append, List.length_cons, length_addrs, List.length_singleton] at this
        have hnat : 4096 * m - used argv - 8 * (argv.length + 2) =
            (UInt64.ofNat (4096 * m - used argv - 8 * (argv.length + 2))).toNat := by omega
        rw [hnat, hbytes, if_pos (by omega), Nat.add_assoc, Nat.add_sub_cancel_left,
          getElem?_words _ _ hj, hi]
        rfl
      · rw [hmem' q hq, hst₂.mem q (fun hm => hq ((hold.mem_iff q).2 (.inl hm)))
          fun he => absurd he h0]
    · rw [if_neg hroom]
      obtain ⟨k₂, hcopy, hb⟩ := hst.copyout_fail hva (by omega) (by omega) hne
      obtain ⟨k', hbad, hres⟩ := bad_spec (s := { s with kmem := k₂, proc := s.proc.spoiled m argv })
        hb rfl false
      refine ⟨k', ?_, hres⟩
      rw [hcopy]
      exact hbad

/-- What each plan comes to, for a caller in state `s`. -/
def Outcome (B : Boot) (k₀ : Kmem) (l : List UInt64) (T : UInt64 → Prop) (s : ExecState)
    (path : List UInt8) (argv : List CString) (plan : Plan) (res : Int32) (s' : ExecState) : Prop :=
  match plan with
  | .fail => res = -1 ∧ ∃ k, s' = { s with kmem := k } ∧ Restored B k₀ l k
  | .crash _ => False
  | .late st => res = -1 ∧ ∃ k, s' =
      { s with kmem := k, proc := s.proc.spoiled (npages st.sz + 2) argv } ∧ Restored B k₀ l k
  | .run entry st => res = 0 ∧ ∃ k r l', s' =
      { s with kmem := k, proc := s.proc.next entry r (npages st.sz + 2) path argv } ∧
    Space B k l' r T ∧ Argued k r (npages st.sz + 2) st.data argv ∧
    ∀ q, ¬ T q → q ≠ p2v 0 → k.mem q = k₀.mem q

/-- **From the stack on.** -/
theorem ExecState.execStack_spec (hold : Space B k₀ l s.proc.pgdir T) {st : Loaded} (entry : UInt64)
    (path : List UInt8) (argv : List CString) (h : Loading B k₀ l r st k l') (hs : s.kmem = k) :
    Spends .outOfMemory (fun e => stackPlan entry st argv = .crash e) 8 l'.length
      (s.execStack B entry r st.sz path argv) fun (res, s') _ =>
        Outcome B k₀ l T s path argv (stackPlan entry st argv) res s' := by
  have htwo : (2 * PGSIZE).toNat = 8192 := by decide
  rw [execStack, hs]
  generalize 2 * PGSIZE = two at htwo ⊢
  change Spends _ _ (8 + 0) _ (k.allocuvm B r (pgroundup st.sz) (pgroundup st.sz + two) >>= _) _
  refine Spends.bind ((h.guard htwo).mono le_rfl (fun _ => False.elim) fun _ _ => id) ?_
  rintro ⟨sz, k₁⟩ n ⟨l₁, rfl, hsz, k₂, hclear, hst⟩
  have h0 : sz ≠ 0 := by
    rintro rfl
    have : 0 = 4096 * (npages st.sz + 2) := hsz
    omega
  change Spends _ _ _ _ (if sz = 0 then _ else (k₁.clearpteu r (sz - two) >>= _)) _
  rw [if_neg h0, hclear]
  change Spends _ _ _ _ (ExecState.execArgs B entry r sz path argv { s with kmem := k₂ }) _
  have hargs := execArgs_spec (s := { s with kmem := k₂ }) hold entry path argv hst rfl hsz
  rw [stackPlan]
  cases hp : place (4096 * (npages st.sz + 2)) argv [] with
  | bad =>
    rw [hp] at hargs
    obtain ⟨k', hok, hres⟩ := hargs
    rw [hok]
    exact .ok ⟨rfl, k', rfl, hres⟩
  | crash =>
    rw [hp] at hargs
    have hok : ExecState.execArgs B entry r sz path argv { s with kmem := k₂ } = _ := hargs
    rw [hok]
    exact .inr rfl
  | fits =>
    rw [hp] at hargs
    dsimp only at hargs ⊢
    by_cases hroom : used argv + 8 * (argv.length + 2) ≤ 4096
    · rw [if_pos hroom] at hargs ⊢
      obtain ⟨k', l'', hok, hspace, harg, hmem⟩ := hargs
      rw [hok]
      exact .ok ⟨rfl, k', r, l'', rfl, hspace, harg, hmem⟩
    · rw [if_neg hroom] at hargs ⊢
      obtain ⟨k', hok, hres⟩ := hargs
      rw [hok]
      exact .ok ⟨rfl, k', rfl, hres⟩

/-- The memory that the caller had is not part of the outcome. -/
theorem Outcome.of_kmem {path : List UInt8} {plan : Plan} {res : Int32}
    (h : Outcome B k₀ l T { s with kmem := k } path argv plan res s') :
    Outcome B k₀ l T s path argv plan res s' := by
  cases plan <;> exact h

-- a goal about `Spends` is not to be evaluated
attribute [local irreducible] Spends

/-- **With the inode locked.** -/
theorem ExecState.execFile_spec (hold : Space B s.kmem l s.proc.pgdir T) (f : Program)
    (path : List UInt8) (argv : List CString) :
    Spends .outOfMemory (fun e => filePlan f argv = .crash e) (execNeed (some f)) l.length
      (s.execFile B f path argv) fun (res, s') _ =>
        Outcome B s.kmem l T s.iunlockput.endOp path argv (filePlan f argv) res s' := by
  have hfail : s.bad B 0 true = .ok (-1, s.iunlockput.endOp) := rfl
  have hpool := hold.tree.pool
  have hsame : Restored B s.kmem l s.kmem := ⟨⟨l, hpool, fun _ => Iff.rfl⟩, fun _ _ _ => rfl⟩
  rw [execFile, filePlan, execNeed]
  cases f.elfhdr with
  | none =>
    dsimp only
    rw [hfail]
    exact .ok ⟨rfl, s.kmem, rfl, hsame⟩
  | some elf =>
    dsimp only
    by_cases hmagic : elf.magic ≠ ELF_MAGIC
    · rw [if_pos hmagic, if_pos hmagic, hfail]
      exact Spends.unused ⟨rfl, s.kmem, rfl, hsame⟩
    rw [if_neg hmagic, if_neg hmagic]
    refine Spends.bind (hpool.loading.mono le_rfl (fun _ => False.elim) fun _ _ => id) ?_
    rintro ⟨r, k₁⟩ n ⟨l₁, rfl, hr, hL⟩
    change Spends _ _ _ _ (if r = 0 then _ else
      (k₁.loadLoop B f r elf.phnum.toNat elf.phoff.toUInt32 Loaded.start.sz >>= _)) _
    rw [if_neg (hpool.valid r hr).ne_zero]
    have hload := hL.loadLoop f elf.phnum.toNat elf.phoff.toUInt32
    rw [show npages Loaded.start.sz = 1 from rfl, ← Program.load] at hload
    refine Spends.bind (hload.mono le_rfl (fun e he => ?_) fun _ _ => id) ?_
    · obtain ⟨rfl, st', hst'⟩ := he
      rw [hst']
    rintro ⟨res, k₂⟩ n ⟨l₂, rfl, hf⟩
    cases hlay : f.load elf with
    | bad st =>
      rw [hlay] at hf
      cases res with
      | some sz => cases hf
      | none =>
        obtain ⟨k', hok, hres⟩ := bad_spec (s := { s with kmem := k₂ }) hf rfl true
        change Spends _ _ _ _ (ExecState.bad B r true { s with kmem := k₂ }) _
        rw [hok]
        exact Spends.unused ⟨rfl, k', rfl, hres⟩
    | crash st =>
      rw [hlay] at hf
      cases res <;> cases hf
    | done st =>
      rw [hlay] at hf
      cases res with
      | none => cases hf
      | some sz =>
        obtain ⟨rfl, hL₂⟩ := hf
        have hstack := execStack_spec (s := { s with kmem := k₂ }.iunlockput.endOp) hold elf.entry path
          argv hL₂ rfl
        refine hstack.mono le_rfl (fun _ => id) ?_
        rintro ⟨res, s'⟩ _ hout
        exact Outcome.of_kmem (s := s.iunlockput.endOp) hout

/-- **`exec` carries out the plan**, unless it finds fewer than `execNeed` free pages. -/
theorem ExecState.exec_spec (hold : Space B s.kmem l s.proc.pgdir T) (file : Option Program)
    (path : List UInt8) (argv : List CString) :
    Spends .outOfMemory (fun e => execPlan file argv = .crash e) (execNeed file) l.length
      (s.exec B file path argv) fun (res, s') _ =>
        Outcome B s.kmem l T { s with locked := s.locked && file.isNone } path argv
          (execPlan file argv) res s' := by
  cases file with
  | none =>
    rw [exec, execNeed, execPlan]
    refine .ok ⟨rfl, s.kmem, ?_, ⟨l, hold.tree.pool, fun _ => Iff.rfl⟩, fun _ _ _ => rfl⟩
    simp [beginOp, endOp]
  | some f =>
    have hfile := execFile_spec (s := s.beginOp.namei.ilock) hold f path argv
    refine hfile.mono le_rfl (fun _ => id) ?_
    rintro ⟨res, s'⟩ _ hout
    simpa [beginOp, namei, ilock, iunlockput, endOp, execPlan] using hout

end Xv6

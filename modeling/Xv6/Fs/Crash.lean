/-
  The file system survives crashes (`log.c`, `fs.c`).

  Processes make their calls of `fs.c` between `begin_op` and `end_op`.  A call
  works on what the buffer cache shows, and stores what it changes there block
  by block, with `log_write` for each.  One call of `fs.c` is made at a time;
  its stores are interleaved with the `begin_op`, `end_op` and `commit` of other
  processes, by the steps of `LogSys`.  The machine can stop in every state.
  Then recovery runs, which can be cut off any number of times, and the kernel
  boots from the disk it leaves.

  `World.Inv` joins the invariants of the log (`LogSys.Inv`) and of the file
  system (`Consistent`).  A crash is one more step that keeps it.
-/
import Xv6.Log.Atomic
import Xv6.Fs.Content

namespace Xv6

open Transition Fallible

/-! ## The log area is not part of the file system -/

/-- The log lies between the super block and the inode blocks. -/
structure LogArea.Below (a : LogArea) (sb : Superblock) : Prop where
  super : 1 < a.start
  inodes : a.start + a.size ≤ sb.inodestart

section
variable {a : LogArea} {sb : Superblock} {F : Prop} {d d' : Disk}

theorem LogArea.Below.not_mem (h : a.Below sb) {b : BlockNo} (hb : sb.inodestart ≤ b.toNat) :
    ¬ a.Mem b := fun hm => absurd (h.inodes.trans hb) hm.2.not_ge

theorem LogArea.Below.readsb (h : a.Below sb) (hd : HomeEq a d' d) : Xv6.readsb d' = Xv6.readsb d := by
  have h1 : d' 1 = d 1 := hd 1 fun hm => absurd h.super (Nat.not_lt.2 hm.1)
  simp only [Xv6.readsb, h1]

theorem LogArea.Below.dinodeAt (h : a.Below sb) (hok : sb.Ok) (hd : HomeEq a d' d) {i : ℕ}
    (hi : i < sb.ninodes) : Xv6.dinodeAt sb d' i = Xv6.dinodeAt sb d i := by
  have hb : sb.inodestart ≤ (sb.iblock i).toNat := by
    rw [(hok.toNat_iblock hi).1]
    exact Nat.le_add_left _ _
  rw [Xv6.dinodeAt, Xv6.dinodeAt, hd _ (h.not_mem hb)]

/-- **Ownership of the blocks depends on the home blocks only.** -/
theorem Owned.homeEq (h : Owned F sb d) (ha : a.Below sb) (hd : HomeEq a d' d) : Owned F sb d' := by
  have hok := h.refs.ok
  have hmap : sb.inodestart ≤ sb.bmapstart := (Nat.le_add_right _ _).trans hok.inodes.le
  have hmeta : sb.inodestart ≤ sb.nmeta := by
    rw [Superblock.nmeta, Nat.add_assoc]
    exact hmap.trans (Nat.le_add_right _ _)
  have hdin : ∀ {i}, i < sb.ninodes → dinodeAt sb d' i = dinodeAt sb d i := ha.dinodeAt hok hd
  have hbit : ∀ c < sb.size, bitAt sb d' c = bitAt sb d c := by
    intro c hc
    have hb : sb.inodestart ≤ (sb.bblock c).toNat := by
      rw [(hok.toNat_bblock hc).1]
      exact hmap.trans (Nat.le_add_left _ _)
    rw [bitAt, bitAt, hd _ (ha.not_mem hb)]
  have hslot : ∀ {i}, i < sb.ninodes → (dinodeAt sb d i).type ≠ 0 → ∀ t,
      (dinodeAt sb d' i).slot d' t = (dinodeAt sb d i).slot d t := by
    intro i hi ht t
    rw [hdin hi]
    refine slot_congr (fun hia => hd _ (ha.not_mem ?_)) t
    exact hmeta.trans (h.refs.used_slot (s := .addr iaddr) hi ht hia).1.1
  refine ⟨?_, fun hi ht => ?_, fun hi ht => ?_, fun hF i hi ht => ?_⟩
  · refine h.refs.congr hbit (ha.readsb hd) fun k => ?_
    obtain ⟨i, t⟩ := k
    by_cases hi : i < sb.ninodes
    · exact owner_congr (by rw [hdin hi]) fun ht => hslot hi ht t
    · rw [owner, owner, if_neg fun h => hi h.1, if_neg fun h => hi h.1]
  · rw [hdin hi] at ht ⊢
    have hf := (h.filled hi ht).congr (hslot hi ht)
    rwa [hdin hi] at hf
  · rw [hdin hi] at ht ⊢
    exact h.size hi ht
  · rw [hdin hi] at ht ⊢
    exact h.empty hF hi ht

theorem Consistent.homeEq {fs : Fs} (h : Consistent F fs) (ha : a.Below fs.sb)
    (hd : HomeEq a d fs.disk) : Consistent F { fs with disk := d } := by
  refine ⟨h.owned.homeEq ha hd, fun hi => ?_, h.once⟩
  have he := h.entry hi
  refine ⟨he.dev, he.range, fun hv => ?_⟩
  obtain ⟨hdi, ht⟩ := he.valid hv
  exact ⟨(ha.dinodeAt h.owned.refs.ok hd he.range).trans hdi, ht⟩

end

/-- No call changes the super block. -/
theorem FsStep.sb {F : Prop} {dev : Devsw} {fs fs' : Fs} {op : FsOp} (h : Consistent F fs)
    (hs : FsStep dev fs op fs') : fs'.sb = fs.sb := by
  have hkeep := fun i hi hop => (h.exec_sameEntry hs (i := i) hi hop).sb
  obtain ⟨hr, hok⟩ := hs
  cases op with
  | iget inum =>
    obtain ⟨r, -, hok⟩ := bind_ok hok
    cases hok
    rfl
  | ialloc type =>
    obtain ⟨⟨i, fs₁⟩, hal, hok⟩ := bind_ok hok
    cases hok
    unfold Xv6.ialloc at hal
    split at hal
    · obtain ⟨r, -, hal⟩ := bind_ok hal
      cases hal
      rfl
    · cases hal
  | idup i | ilock i => exact hkeep i hr (by rintro ⟨⟩)
  | update i | readi i | dirlink i => exact hkeep i hr.1 (by rintro ⟨⟩)
  | writei i => exact hkeep i hr.1.1 (by rintro ⟨⟩)
  | iput i =>
    obtain ⟨fs₁, hput, hp⟩ := h.iput_ok hr
    cases hput.symm.trans hok
    rcases hp with ⟨-, -, -, ip, d, -, -, -, rfl⟩ | ⟨-, rfl⟩ <;> rfl

/-! ## What a step of the log leaves alone -/

namespace LogSys
variable {a : LogArea} {d₀ : Disk} {s s' : LogSys} {p q : ℕ} {x : LogAct}

theorem Stepped.proc_of_ne (h : Stepped a s p x s') (hq : q ≠ p) : s'.proc q = s.proc q := by
  cases h <;> first | rfl | exact Function.update_of_ne hq ..

theorem Stepped.stores (h : Stepped a s p x s') (hx : ∀ b f, x ≠ .store b f) :
    s'.stores = s.stores := by
  cases h with
  | storeOut b f | storeOp b f => exact absurd rfl (hx b f)
  | _ => rfl

/-- The finished groups change when a commit finishes, and then are all that the cache shows. -/
theorem Inv.base_step (h : Inv a d₀ s) (hs : Stepped a s p x s') :
    s'.base d₀ = s.base d₀ ∧ s'.done = s.done ∨
    s.done < s'.done ∧ HomeEq a (s'.base d₀) s.mach.mem ∧ s'.mach.mem = s.mach.mem ∧
      ∀ q, (s.proc q).op? = none := by
  cases hs with
  | @storeOp o b f hp =>
    have hid := (h.running (p := p) (by rw [hp]; rfl)).1
    exact .inl ⟨congrArg (replay · d₀) (storesBelow_concat_of_le hid), rfl⟩
  | finish hp =>
    rcases h.done_le.eq_or_lt with heq | hlt
    · exact .inl ⟨congrArg (fun k => replay (storesBelow k s.stores) d₀) heq.symm, heq.symm⟩
    · refine .inr ⟨hlt, fun b hb => ?_, rfl, h.ctl.no_op hp⟩
      rw [h.mem b hb]
      exact congrArg (replay · d₀ b) (storesBelow_eq_self fun st hst => (h.stores st hst).1)
  | _ => exact .inl ⟨rfl, rfl⟩

/-- Steps that store nothing leave what the cache shows of the home blocks. -/
theorem Inv.mem_step (h : Inv a d₀ s) (h' : Inv a d₀ s') (hst : s'.stores = s.stores) :
    HomeEq a s'.mach.mem s.mach.mem := fun b hb => by
  rw [h'.mem b hb, h.mem b hb, hst]

end LogSys

/-! ## The machine -/

structure World where
  sys : LogSys
  sb : Superblock
  icache : Icache
  /-- the process that is in a call of `fs.c`, and the state that the call leads to -/
  call : Option (ℕ × Fs)
  /-- the disk at the last boot -/
  start : Disk
  /-- what the cache showed when the last commit finished -/
  saved : Disk

inductive World.Act where
  /-- a process enters a call of `fs.c` -/
  | call (p : ℕ) (op : FsOp)
  /-- the call returns -/
  | ret
  | log (p : ℕ) (x : LogAct)
  /-- a crash, with recoveries that are cut off and leave the disk `d` -/
  | crash (d : Disk)

namespace World

/-- The kernel has started from disk `d`, whose log is empty. -/
def boot (d : Disk) : World := ⟨.init d, readsb d, fun _ => ⟨0, 0, 0, false, .zero⟩, none, d, d⟩

/-- The file system that a call finds. -/
def fs (w : World) : Fs := ⟨w.sb, w.sys.mach.mem, w.icache⟩

/-- A process stores and logs in a call of `fs.c`, and uses the log otherwise outside of one. -/
def Allows (w : World) (p : ℕ) : LogAct → Prop
  | .store .. | .logWrite _ | .logAdd => ∃ fs, w.call = some (p, fs)
  | .beginOp | .endOp | .commit => ∀ fs, w.call ≠ some (p, fs)
  | .bwrite _ => False

/-- After a step of the log. -/
def after (w : World) (s : LogSys) : World :=
  { w with sys := s, saved := if w.sys.done < s.done then s.mach.mem else w.saved }

/-- A call starts only when no other call is in progress, in an operation of its process.  Steps of
    the log change and log no block of the log area, end an operation only after its changes are
    logged, and leave a header that fits. -/
def Step (a : LogArea) (dev : Devsw) (w : World) : Act → World → Prop
  | .call p op, w' => w.call = none ∧ (∃ o, w.sys.proc p = .op o) ∧
      ∃ fs', FsStep dev w.fs op fs' ∧ w' = { w with call := some (p, fs') }
  | .ret, w' => ∃ p fs', w.call = some (p, fs') ∧ (∃ o, w.sys.proc p = .op o) ∧
      HomeEq a w.sys.mach.mem fs'.disk ∧ w' = { w with icache := fs'.icache, call := none }
  | .log p x, w' => w.Allows p x ∧ w.sys.Legal a p x ∧ w.sys.Transactional p x ∧
      ∃ s, w.sys.next a p x = some s ∧ s.Fits a ∧ w' = w.after s
  | .crash d, w' => Crashes a w.sys.mach.disk d ∧
      ∃ m, recoverFromLog a (.boot d) = some m ∧ w' = boot m.disk

/-! ## The invariant -/

structure Inv (a : LogArea) (F : Prop) (sb : Superblock) (w : World) : Prop where
  sb_eq : w.sb = sb
  log : LogSys.Inv a w.start w.sys
  idle : w.call = none → Consistent F w.fs
  busy : ∀ {p fs}, w.call = some (p, fs) →
    Consistent F fs ∧ fs.sb = sb ∧ LogSys.InOp w.sys.proc p
  base : HomeEq a (w.sys.base w.start) w.saved
  saved : Owned F sb w.saved

namespace Inv
variable {a : LogArea} {F : Prop} {sb : Superblock} {w w' : World} {dev : Devsw} {d : Disk}
  {p : ℕ}

theorem boot (ho : Owned F sb d) (hh : headN (d a.head) = 0) : Inv a F sb (boot d) where
  sb_eq := ho.refs.super
  log := .init hh
  idle _ := ⟨by rw [World.fs, World.boot, ho.refs.super]; exact ho, by rintro _ ⟨⟩, by rintro _ _ ⟨⟩⟩
  busy hc := by cases hc
  base _ _ := rfl
  saved := ho

/-- Without running operations no call is in progress. -/
theorem idle_of_no_op (h : Inv a F sb w) (hno : ∀ q, (w.sys.proc q).op? = none) :
    Consistent F w.fs := by
  refine h.idle ?_
  by_contra hc
  obtain ⟨⟨p, fs⟩, hc⟩ := Option.ne_none_iff_exists'.1 hc
  have hop := (h.busy hc).2.2
  rw [LogSys.InOp, hno p] at hop
  cases hop

/-- **Recovery after a crash** gives back what the last finished commit left or, when no operation
    was running, what the cache showed. -/
theorem recover (h : Inv a F sb w) (ha : a.Below sb) (hc : Crashes a w.sys.mach.disk d) :
    ∃ m, recoverFromLog a (.boot d) = some m ∧ headN (m.disk a.head) = 0 ∧ Owned F sb m.disk ∧
      (HomeEq a m.disk w.saved ∨
        (∀ q, (w.sys.proc q).op? = none) ∧ HomeEq a m.disk w.sys.mach.mem) := by
  rcases h.log.disk_cases with hcl | ⟨hno, hcl⟩
  · obtain ⟨m, hm, hm', -⟩ := (hcl.crashes hc).recover
    have hhome : HomeEq a m.disk w.saved := fun b hb => (hm'.home b hb).trans (h.base b hb)
    exact ⟨m, hm, hm'.head, h.saved.homeEq ha hhome, .inl hhome⟩
  · obtain ⟨t, hcl⟩ : ∃ t : Trans a, Committed a t.block w.sys.mach.mem w.sys.mach.disk ∨
        Clean a w.sys.mach.mem w.sys.mach.disk :=
      hcl.elim (fun h => ⟨.empty a, .inr h⟩) fun h => h.imp fun t => .inl
    obtain ⟨m, hm, hm'⟩ : ∃ m, recoverFromLog a (.boot d) = some m ∧
        Clean a w.sys.mach.mem m.disk := by
      rcases Committed.crashes hcl hc with hcl | hcl
      all_goals
        obtain ⟨m, hm, hm', -⟩ := hcl.recover
        exact ⟨m, hm, hm'⟩
    have hsb := h.sb_eq
    have hown : Owned F sb w.sys.mach.mem := hsb ▸ (h.idle_of_no_op hno).owned
    exact ⟨m, hm, hm'.head, hown.homeEq ha hm'.home, .inr ⟨hno, hm'.home⟩⟩

variable {fs' : Fs}

theorem call (h : Inv a F sb w) {op : FsOp} (hc : w.call = none) (hp : ∃ o, w.sys.proc p = .op o)
    (hs : FsStep dev w.fs op fs') :
    Inv a F sb { w with call := some (p, fs') } := by
  have hcons := h.idle hc
  refine ⟨h.sb_eq, h.log, (by rintro ⟨⟩), fun {q fs} hq => ?_, h.base, h.saved⟩
  cases hq
  obtain ⟨o, ho⟩ := hp
  refine ⟨(hcons.exec hs.1).2 _ hs.2, (hs.sb hcons).trans h.sb_eq, ?_⟩
  rw [LogSys.InOp, ho]
  rfl

theorem ret (h : Inv a F sb w) (ha : a.Below sb) (hc : w.call = some (p, fs'))
    (hd : HomeEq a w.sys.mach.mem fs'.disk) :
    Inv a F sb { w with icache := fs'.icache, call := none } := by
  obtain ⟨hcons, rfl, -⟩ := h.busy hc
  refine ⟨h.sb_eq, h.log, fun _ => ?_, (by rintro _ _ ⟨⟩), h.base, h.saved⟩
  have := hcons.homeEq ha hd
  rw [World.fs]
  simp only [h.sb_eq]
  exact this

/-- The process in a call stays in its operation. -/
theorem inOp_step (h : Inv a F sb w) {q : ℕ} {x : LogAct} {s : LogSys} (hc : w.call = some (q, fs'))
    (hal : w.Allows p x) (hs : w.sys.Stepped a p x s) :
    LogSys.InOp s.proc q := by
  have hop := (h.busy hc).2.2
  by_cases hqp : q = p
  · subst hqp
    cases hs with
    | storeOut b f hp => exact hop
    | storeOp b f hp => exact hop
    | logPanic b hp he => exact hop
    | logWrite | logAdd => simp [LogSys.InOp, LogPc.op?]
    | bwrite b => exact hal.elim
    | _ => exact absurd hc (hal fs')
  · rw [LogSys.InOp, hs.proc_of_ne hqp]
    exact hop

theorem step_log (h : Inv a F sb w) (ha : a.Below sb) {x : LogAct} {s : LogSys}
    (hal : w.Allows p x) (hl : w.sys.Legal a p x) (ht : w.sys.Transactional p x)
    (hn : w.sys.next a p x = some s) (hf : s.Fits a) : Inv a F sb (w.after s) := by
  obtain ⟨-, hs⟩ := LogSys.next_stepped hn
  have hlog := h.log.step hl ht hs hf
  have hsb := h.sb_eq
  have hsaved : HomeEq a (s.base w.start) (w.after s).saved ∧ Owned F sb (w.after s).saved := by
    rcases h.log.base_step hs with ⟨hbase, hdone⟩ | ⟨hdone, hbase, hmem, hno⟩
    · simp only [after, hdone, lt_irrefl, if_false, hbase]
      exact ⟨h.base, h.saved⟩
    · simp only [after, hdone, if_true, hmem]
      exact ⟨hbase, hsb ▸ (h.idle_of_no_op hno).owned⟩
  refine ⟨hsb, hlog, fun hc => ?_, fun {q fs'} hc => ?_, hsaved.1, hsaved.2⟩
  · have hx : ∀ b f, x ≠ .store b f := by
      rintro b f rfl
      obtain ⟨fs', hc'⟩ := hal
      cases hc.symm.trans hc'
    have hmem := h.log.mem_step hlog (hs.stores hx)
    have hb : a.Below w.sb := hsb ▸ ha
    exact (h.idle hc).homeEq hb hmem
  · obtain ⟨h1, h2, -⟩ := h.busy hc
    exact ⟨h1, h2, h.inOp_step hc hal hs⟩

theorem step (h : Inv a F sb w) (ha : a.Below sb) {x : Act} (hs : Step a dev w x w') :
    Inv a F sb w' := by
  cases x with
  | call p op =>
    obtain ⟨hc, hp, fs', hfs, rfl⟩ := hs
    exact h.call hc hp hfs
  | ret =>
    obtain ⟨p, fs', hc, -, hd, rfl⟩ := hs
    exact h.ret ha hc hd
  | log p x =>
    obtain ⟨hal, hl, ht, s, hn, hf, rfl⟩ := hs
    exact h.step_log ha hal hl ht hn hf
  | crash d =>
    obtain ⟨hc, m, hm, rfl⟩ := hs
    obtain ⟨m', hm', hh, ho, -⟩ := h.recover ha hc
    obtain rfl := Option.some.inj (hm'.symm.trans hm)
    exact .boot ho hh

end Inv

/-- **The file system survives every crash.**  Let the kernel boot from a disk whose blocks have one
    owner and whose log is empty.  At every point of every run of calls, one at a time, of commits
    and crashes, and however often recovery is cut off, the next recovery that is not gives such a
    disk.  It has what was there when the last commit finished or, when no operation was running,
    what the cache showed. -/
theorem crash_consistent {a : LogArea} {F : Prop} {dev : Devsw} {d₀ d : Disk} {w : World}
    (ho : Owned F (readsb d₀) d₀) (ha : a.Below (readsb d₀)) (hh : headN (d₀ a.head) = 0)
    (hr : Reach (· = boot d₀) (Step a dev) w) (hc : Crashes a w.sys.mach.disk d) :
    ∃ m, recoverFromLog a (.boot d) = some m ∧ headN (m.disk a.head) = 0 ∧
      readsb m.disk = readsb d₀ ∧ BlocksOwned (readsb d₀) m.disk ∧
      (F → ∀ i < (readsb d₀).ninodes, (dinodeAt (readsb d₀) m.disk i).type = 0 →
        (dinodeAt (readsb d₀) m.disk i).Empty) ∧
      (HomeEq a m.disk w.saved ∨
        (∀ q, (w.sys.proc q).op? = none) ∧ HomeEq a m.disk w.sys.mach.mem) := by
  have hi : Inv a F (readsb d₀) w := hr.inv (fun _ heq => heq ▸ .boot ho hh)
    fun _ _ _ h hs => h.step ha hs
  obtain ⟨m, hm, hm0, hown, hhome⟩ := hi.recover ha hc
  exact ⟨m, hm, hm0, hown.refs.super, hown.blocksOwned, fun hF i hi ht => hown.empty hF hi ht, hhome⟩

/-! A disk with a log of four blocks, two inodes in block 6, the bit map in block 7 and 12 data
blocks. -/

def logDisk : Disk := fun b j =>
  if b = 1 then ([20, 0, 0, 0, 12, 0, 0, 0, 2, 0, 0, 0, 4, 0, 0, 0, 2, 0, 0, 0, 6, 0, 0, 0, 7] :
    List UInt8).getD j 0
  else if b = 7 ∧ j = 0 then 0xff
  else 0

theorem logDisk_owned : Owned True (readsb logDisk) logDisk := by
  have hsb : readsb logDisk = ⟨20, 12, 2, 4, 2, 6, 7⟩ := by decide +kernel
  rw [hsb]
  refine (empty_consistent ⟨by decide, by decide, by decide, by decide⟩ hsb (by decide +kernel)
    (by decide) fun i hi => ?_).owned
  have : i = 0 ∨ i = 1 := by
    simp only at hi
    omega
  rcases this with rfl | rfl <;> exact Dinode.ext (by decide) (by decide) (by decide) (by decide)
    (by decide) (funext (by decide))

def smallLog : LogArea := ⟨2, 4, by decide, by decide⟩

/-- The machine stops while a process is in `ialloc`. -/
theorem crash_consistent_ialloc : ∃ w m, Reach (· = boot logDisk) (Step smallLog noDev) w ∧
    w.call ≠ none ∧ recoverFromLog smallLog (.boot w.sys.mach.disk) = some m ∧
    BlocksOwned (readsb logDisk) m.disk := by
  obtain ⟨w₁, h1, hc, hp, hw⟩ : ∃ w₁, Step smallLog noDev (boot logDisk) (.log 0 .beginOp) w₁ ∧
      w₁.call = none ∧ (∃ o, w₁.sys.proc 0 = .op o) ∧ w₁.fs = (boot logDisk).fs :=
    ⟨_, ⟨by rintro _ ⟨⟩, trivial, trivial, _, rfl, ⟨Nat.zero_le _, Nat.zero_le _⟩, rfl⟩, rfl,
      ⟨_, rfl⟩, rfl⟩
  obtain ⟨fs', hfs⟩ := Option.isSome_iff_exists.1 (show (if FsOp.Ready (boot logDisk).fs
    (.ialloc T_FILE) then ((boot logDisk).fs.exec noDev (.ialloc T_FILE)).toOption else none).isSome
    by decide +kernel)
  have h2 : Step smallLog noDev w₁ (.call 0 (.ialloc T_FILE)) _ :=
    ⟨hc, hp, fs', hw ▸ fsStep_of_exec _ _ _ hfs, rfl⟩
  have hr : Reach (· = boot logDisk) (Step smallLog noDev) _ := .step (.step (.init rfl) h1) h2
  obtain ⟨m, hm, -, -, hown, -⟩ := crash_consistent logDisk_owned ⟨by decide, by decide +kernel⟩
    (by decide) hr .none
  exact ⟨_, m, hr, by rintro ⟨⟩, hm, hown⟩

end World

end Xv6

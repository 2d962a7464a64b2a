/-
  `iput` frees an inode while other processes execute `create`.

  `iput` marks the inode free on disk before it clears `I_VALID` in the cache,
  and holds neither `icache.lock` nor the sleep-lock in between.  A `create`
  that comes then returns an inode of type 0 (`create_half_freed`).  In runs
  without a test of `I_VALID` in that window, every inode that `create`
  returns has the requested type (`create_returns_type`).

  The invariant `CrInv` speaks about types: the in-memory types of the entries
  in use are those on disk, and only `iput` and `ialloc` change them.
-/
import Xv6.Fs.Create
import Xv6.Lib.Count

namespace Xv6

open Transition Count Function

/-! ## What a process knows -/

namespace Role

/-- The parent directory, if it is not the inode itself. -/
def refs : Role → List (Fin NINODE)
  | .fresh dp => [dp]
  | _ => []

def dir (i : Fin NINODE) : Role → Option (Fin NINODE)
  | .parent => some i
  | .fresh dp => some dp
  | .existing => none

def newIp (i : Fin NINODE) : Role → Option (Fin NINODE)
  | .fresh _ => some i
  | _ => none

end Role

namespace Then

def refs : Then → List (Fin NINODE)
  | .ret ip => [ip]
  | .existing ip => [ip]
  | .fail => []

def newIp : Then → Option (Fin NINODE)
  | .ret ip => some ip
  | _ => none

end Then

namespace CreatePc

/-- The entries to which the process has a reference. -/
def refs : CreatePc → List (Fin NINODE)
  | .start | .failed => []
  | .ilock r i _ => i :: r.refs
  | .lookup dp | .ialloc dp _ | .iget dp _ => [dp]
  | .fields dp ip | .update dp ip | .nlink dp ip | .dpUpdate dp ip | .dirlookup dp ip _
  | .writei dp ip _ => [ip, dp]
  | .iunlock i k | .iput i k => i :: k.refs
  | .check ip | .ret ip | .old ip | .opened ip => [ip]

/-- The parent directory. -/
def dir : CreatePc → Option (Fin NINODE)
  | .ilock r i _ => r.dir i
  | .lookup dp | .ialloc dp _ | .iget dp _ | .fields dp _ | .update dp _ | .nlink dp _
  | .dpUpdate dp _ | .dirlookup dp _ _ | .writei dp _ _ => some dp
  | _ => none

/-- The inode that the process has allocated. -/
def newIp : CreatePc → Option (Fin NINODE)
  | .ilock r i _ => r.newIp i
  | .fields _ ip | .update _ ip | .nlink _ ip | .dpUpdate _ ip | .dirlookup _ ip _
  | .writei _ ip _ | .ret ip => some ip
  | .iunlock _ k | .iput _ k => k.newIp
  | _ => none

/-- The inodes that the process has locked with `ilock`. -/
def valids : CreatePc → List (Fin NINODE)
  | .ilock r _ _ => r.refs
  | .lookup dp | .ialloc dp _ | .iget dp _ => [dp]
  | .fields dp ip | .update dp ip | .nlink dp ip | .dpUpdate dp ip | .dirlookup dp ip _
  | .writei dp ip _ => [ip, dp]
  | .iunlock _ k | .iput _ k => k.newIp.toList
  | .ret ip | .check ip => [ip]
  | _ => []

/-- The inode that the process has just read from disk. -/
def loaded : CreatePc → Option (Fin NINODE)
  | .ilock _ i .set => some i
  | _ => none

/-- The inode whose link count the process has changed in memory. -/
def dirty : CreatePc → Option (Fin NINODE)
  | .update _ ip => some ip
  | .dpUpdate dp _ => some dp
  | _ => none

/-- The inode number that `ialloc` has marked, before `iget`. -/
def marked : CreatePc → Option ℕ
  | .iget _ inum => some inum
  | _ => none

/-- The process creates a directory. -/
def Dots : CreatePc → Prop
  | .nlink _ _ | .dpUpdate _ _ => True
  | .dirlookup _ _ k | .writei _ _ k => k ≠ .name
  | _ => False

/-- The process has allocated inode `i` and has not tested `I_VALID` yet. -/
def Waiting (i : Fin NINODE) : CreatePc → Prop
  | .ilock (.fresh dp) j pc => j = i ∧ dp ≠ i ∧ (pc = .acquire ∨ pc = .test)
  | _ => False

variable {pc : CreatePc} {i : Fin NINODE}

attribute [local simp] refs valids dir newIp loaded dirty Then.refs Then.newIp Role.refs Role.dir
  Role.newIp

theorem mem_refs_of_valids (h : i ∈ pc.valids) : i ∈ pc.refs := by
  cases pc with
  | iunlock j k | iput j k => cases k <;> simp_all
  | _ => simp_all

theorem mem_refs_of_dir (h : pc.dir = some i) : i ∈ pc.refs := by
  cases pc with
  | ilock r j pc => cases r <;> simp_all
  | _ => simp_all

theorem mem_refs_of_newIp (h : pc.newIp = some i) : i ∈ pc.refs := by
  cases pc with
  | ilock r j pc => cases r <;> simp_all
  | iunlock j k | iput j k => cases k <;> simp_all
  | _ => simp_all

theorem mem_refs_of_loaded (h : pc.loaded = some i) : i ∈ pc.refs := by
  cases pc with
  | ilock r j l => cases l <;> simp_all
  | _ => cases h

theorem mem_refs_of_dirty (h : pc.dirty = some i) : i ∈ pc.refs := by
  cases pc with
  | update dp ip | dpUpdate dp ip => simp_all
  | _ => cases h

theorem not_waiting_of_valids (h : i ∈ pc.valids) : ¬ pc.Waiting i := by
  cases pc with
  | ilock r j l =>
    cases r with
    | fresh dp =>
      rintro ⟨-, hne, -⟩
      exact hne (List.mem_singleton.1 h).symm
    | _ => exact id
  | _ => exact id

theorem newIp_of_waiting (h : pc.Waiting i) : pc.newIp = some i := by
  cases pc with
  | ilock r j l =>
    cases r with
    | fresh dp => rw [newIp, Role.newIp, h.1]
    | _ => cases h
  | _ => cases h

theorem not_waiting_of_loaded (h : pc.loaded = some i) : ¬ pc.Waiting i := by
  cases pc with
  | ilock r j l =>
    cases r with
    | fresh dp =>
      rintro ⟨-, -, rfl | rfl⟩ <;> cases h
    | _ => exact id
  | _ => cases h

end CreatePc

namespace IputPc

/-- `iput` has decided to free the inode. -/
def Frees : IputPc → Prop
  | .trunc | .clear | .update | .last => True
  | _ => False

/-- The inode is still allocated on disk. -/
def Early : IputPc → Prop
  | .test | .trunc | .clear | .update => True
  | _ => False

theorem Frees.ne_done {pc : IputPc} (h : pc.Frees) : pc ≠ .done := by
  rintro rfl
  exact h

theorem Early.ne_done {pc : IputPc} (h : pc.Early) : pc ≠ .done := by
  rintro rfl
  exact h

end IputPc

/-! ## The invariant -/

namespace CrState

/-- What process `p` at `pc` relies on. -/
structure PcOk (c : Creates) (s : CrState) (p : ℕ) (pc : CreatePc) : Prop where
  dir : ∀ {i}, pc.dir = some i → (s.dinode (s.ip i).inum).type = T_DIR
  newIp : ∀ {i}, pc.newIp = some i → (s.dinode (s.ip i).inum).type = (c.args p).type
  valid : ∀ {i}, i ∈ pc.valids → (s.ip i).valid = true
  marked : ∀ {n}, pc.marked = some n → n < s.fs.sb.ninodes ∧
    (s.dinode n).type = (c.args p).type ∧ (s.iput.Early → n ≠ (s.ip c.e).inum)
  dots : pc.Dots → (c.args p).type = T_DIR

/-- A process that relies on nothing. -/
theorem PcOk.nothing {c : Creates} {s : CrState} {p : ℕ} {pc : CreatePc} (hd : pc.dir = none)
    (hi : pc.newIp = none) (hv : pc.valids = []) (hm : pc.marked = none) (hp : ¬ pc.Dots) :
    s.PcOk c p pc where
  dir h := by rw [hd] at h; cases h
  newIp h := by rw [hi] at h; cases h
  valid h := by rw [hv] at h; cases h
  marked h := by rw [hm] at h; cases h
  dots h := absurd h hp

/-- The in-memory inode agrees with the one on disk, but for a link count that is about to be
    written. -/
def Synced (s : CrState) (i : Fin NINODE) : Prop :=
  (s.ip i).di.type = (s.dinode (s.ip i).inum).type ∧
    ((∀ p, (s.proc p).dirty ≠ some i) → (s.ip i).di.nlink = (s.dinode (s.ip i).inum).nlink)

/-- Entry `i` has been read from disk. -/
def Loaded (s : CrState) (i : Fin NINODE) : Prop :=
  (s.ip i).valid = true ∨ ∃ p, (s.proc p).loaded = some i

/-- `iput` is freeing the inode of entry `i`. -/
def Freeing (c : Creates) (s : CrState) (i : Fin NINODE) : Prop := i = c.e ∧ s.iput.Frees

structure IputOk (c : Creates) (s : CrState) : Prop where
  frees : s.iput.Frees → c.base c.e = 0 ∧ (s.dinode (s.ip c.e).inum).nlink = 0
  early : s.iput.Frees → s.iput.Early → (s.ip c.e).di.nlink = 0 ∧ ∀ p, c.e ∉ (s.proc p).refs
  trunc : s.iput = .trunc ∨ s.iput = .clear → (s.ip c.e).di.type ≠ 0
  last : s.iput = .last → ∀ p, c.e ∈ (s.proc p).refs → (s.proc p).Waiting c.e

structure CrInv (c : Creates) (s : CrState) : Prop where
  ok : s.fs.sb.Ok
  entry : ∀ {i}, 0 < (s.ip i).ref → (s.ip i).dev = ROOTDEV ∧ (s.ip i).inum < s.fs.sb.ninodes
  once : ∀ {i j}, 0 < (s.ip i).ref → 0 < (s.ip j).ref → (s.ip i).inum = (s.ip j).inum → i = j
  refs : ∀ i, Total (fun p => ((s.proc p).refs.count i : ℤ))
    ((s.ip i).ref - c.base i - if i = c.e ∧ s.iput ≠ .done then 1 else 0)
  type : ∀ {i}, 0 < (s.ip i).ref → ¬ (i = c.e ∧ s.iput = .last) →
    (s.dinode (s.ip i).inum).type ≠ 0
  synced : ∀ {i}, 0 < (s.ip i).ref → s.Loaded i → ¬ s.Freeing c i → s.Synced i
  linked : ∀ {n}, n < s.fs.sb.ninodes → (s.dinode n).nlink ≠ 0 → (s.dinode n).type ≠ 0
  proc : ∀ p, s.PcOk c p (s.proc p)
  iput : s.IputOk c
  panicked : s.panicked ≠ some .noType ∧ s.panicked ≠ some .notDir

variable {c : Creates} {s : CrState}

theorem CrInv.init (h : CrInit c s) : s.CrInv c where
  ok := h.ok
  entry hi := ⟨h.dev _ hi, h.inum _ hi⟩
  once := h.once _ _
  refs i := by
    have heq : (((s.ip i).ref : ℤ) - c.base i - if i = c.e ∧ s.iput ≠ .done then 1 else 0) = 0 := by
      rw [h.ref, h.iput]
      split_ifs <;> simp_all
    rw [heq]
    exact .zero fun p => by simp [h.proc, CreatePc.refs]
  type hi _ := h.type _ hi
  synced hi hl _ := by
    rcases hl with hv | ⟨p, hp⟩
    · simp only [Synced, h.valid _ hi hv, implies_true, and_self]
    · rw [h.proc] at hp
      cases hp
  linked hn := h.linked _ hn
  proc p := by
    rw [h.proc]
    exact .nothing rfl rfl rfl rfl id
  iput := by
    refine ⟨fun hf => ?_, fun hf => ?_, fun hf => ?_, fun hf => ?_⟩
    · rw [h.iput] at hf; cases hf
    · rw [h.iput] at hf; cases hf
    · rw [h.iput] at hf; rcases hf with hf | hf <;> cases hf
    · rw [h.iput] at hf; cases hf
  panicked := by
    rw [h.panicked]
    exact ⟨by rintro ⟨⟩, by rintro ⟨⟩⟩

/-! ## What follows from the reference counts -/

section
variable {p : ℕ} {i : Fin NINODE}

theorem count_nonneg (s : CrState) (i : Fin NINODE) (p : ℕ) : (0 : ℤ) ≤ (s.proc p).refs.count i :=
  Int.natCast_nonneg _

theorem CrInv.ref_pos (h : s.CrInv c) (hi : i ∈ (s.proc p).refs) : 0 < (s.ip i).ref := by
  have h1 := (h.refs i).le (s.count_nonneg i) p
  have h2 : 0 < (s.proc p).refs.count i := List.count_pos_iff.2 hi
  split_ifs at h1 <;> omega

theorem CrInv.ref_base (h : s.CrInv c) (hi : 0 < c.base i) : 0 < (s.ip i).ref := by
  have h1 := (h.refs i).nonneg (s.count_nonneg i)
  split_ifs at h1 <;> omega

theorem CrInv.ref_e (h : s.CrInv c) (hd : s.iput ≠ .done) : 0 < (s.ip c.e).ref := by
  have h1 := (h.refs c.e).nonneg (s.count_nonneg c.e)
  rw [if_pos ⟨rfl, hd⟩] at h1
  omega

/-- An entry that a process relies on is not being freed. -/
theorem CrInv.not_freeing (h : s.CrInv c) (hi : i ∈ (s.proc p).refs)
    (hw : ¬ (s.proc p).Waiting i) : ¬ s.Freeing c i := by
  rintro ⟨rfl, hf⟩
  cases hp : s.iput with
  | last => exact hw (h.iput.last hp p hi)
  | test | done => rw [hp] at hf; exact hf
  | trunc | clear | update =>
    exact (h.iput.early hf (by rw [hp]; trivial)).2 p hi

theorem CrInv.not_freeing_of_valids (h : s.CrInv c) (hi : i ∈ (s.proc p).valids) :
    ¬ s.Freeing c i :=
  h.not_freeing (CreatePc.mem_refs_of_valids hi) (CreatePc.not_waiting_of_valids hi)

theorem CrInv.not_freeing_of_loaded (h : s.CrInv c) (hi : (s.proc p).loaded = some i) :
    ¬ s.Freeing c i :=
  h.not_freeing (CreatePc.mem_refs_of_loaded hi) (CreatePc.not_waiting_of_loaded hi)

/-- The type of an inode that a process has locked. -/
theorem CrInv.type_of_valids (h : s.CrInv c) (hi : i ∈ (s.proc p).valids) :
    (s.ip i).di.type = (s.dinode (s.ip i).inum).type :=
  (h.synced (h.ref_pos (CreatePc.mem_refs_of_valids hi)) (.inl ((h.proc p).valid hi))
    (h.not_freeing_of_valids hi)).1

end

/-! ## Steps of `create` -/

section
variable {p : ℕ} {i : Fin NINODE} {pc pc₀ : CreatePc} {fs : Fs}

@[simp] theorem goto_ip (j : Fin NINODE) : (s.goto p pc fs).ip j = fs.icache j := rfl

@[simp] theorem goto_dinode (n : ℕ) : (s.goto p pc fs).dinode n = dinodeAt fs.sb fs.disk n := rfl

@[simp] theorem goto_fs : (s.goto p pc fs).fs = fs := rfl

@[simp] theorem goto_iput : (s.goto p pc fs).iput = s.iput := rfl

@[simp] theorem goto_self : (s.goto p pc fs).proc p = pc := update_self ..

theorem goto_ne {q : ℕ} (hq : q ≠ p) : (s.goto p pc fs).proc q = s.proc q := update_of_ne hq ..

/-- What holds of `pc` and of the other processes holds of all of them after the step. -/
theorem goto_proc {P : ℕ → CreatePc → Prop} (hp : P p pc) (ho : ∀ q, P q (s.proc q)) (q : ℕ) :
    P q ((s.goto p pc fs).proc q) := by
  by_cases hq : q = p
  · rw [hq, goto_self]
    exact hp
  · rw [goto_ne hq]
    exact ho q

variable {j : Fin NINODE}

theorem mem_refs_of_goto (hp : j ∈ pc.refs → j ∈ (s.proc p).refs) :
    ∀ {q}, j ∈ ((s.goto p pc fs).proc q).refs → j ∈ (s.proc q).refs :=
  goto_proc (P := fun q pc => j ∈ pc.refs → j ∈ (s.proc q).refs) hp (fun _ => id) _

theorem waiting_goto (hp : j ∈ pc.refs → pc.Waiting j)
    (ho : ∀ q, j ∈ (s.proc q).refs → (s.proc q).Waiting j) :
    ∀ q, j ∈ ((s.goto p pc fs).proc q).refs → ((s.goto p pc fs).proc q).Waiting j :=
  goto_proc (P := fun _ pc => j ∈ pc.refs → pc.Waiting j) hp ho

theorem Loaded.of_goto (hl : (s.goto p pc fs).Loaded j)
    (hv : (fs.icache j).valid = true → (s.ip j).valid = true) (hp : pc.loaded ≠ some j) : s.Loaded j :=
  hl.imp hv (Exists.imp (goto_proc (P := fun q pc => pc.loaded = some j → (s.proc q).loaded = some j)
    (fun h => absurd h hp) fun _ => id))

theorem clean_of_goto (hd : ∀ q, ((s.goto p pc fs).proc q).dirty ≠ some j)
    (hp : (s.proc p).dirty = some j → pc.dirty = some j) (q : ℕ) : (s.proc q).dirty ≠ some j :=
  fun hq => hd q (goto_proc (P := fun q pc => (s.proc q).dirty = some j → pc.dirty = some j) hp
    (fun _ => id) q hq)

/-- What a process relies on when another one takes a step. -/
theorem PcOk.other {s' : CrState} {q : ℕ} (h : s.PcOk c q pc) (hsb : s'.fs.sb = s.fs.sb)
    (hinum : ∀ {j}, j ∈ pc.refs → (s'.ip j).inum = (s.ip j).inum ∧
      (s'.dinode (s.ip j).inum).type = (s.dinode (s.ip j).inum).type)
    (hvalid : ∀ {j}, j ∈ pc.valids → (s.ip j).valid = true → (s'.ip j).valid = true)
    (hmark : ∀ {n}, pc.marked = some n → n < s.fs.sb.ninodes →
      (s.dinode n).type = (c.args q).type → (s'.dinode n).type = (s.dinode n).type ∧
        (s'.iput.Early → s.iput.Early ∧ (s'.ip c.e).inum = (s.ip c.e).inum)) :
    s'.PcOk c q pc where
  dir hj := by
    obtain ⟨h1, h2⟩ := hinum (CreatePc.mem_refs_of_dir hj)
    rw [h1, h2]
    exact h.dir hj
  newIp hj := by
    obtain ⟨h1, h2⟩ := hinum (CreatePc.mem_refs_of_newIp hj)
    rw [h1, h2]
    exact h.newIp hj
  valid hj := hvalid hj (h.valid hj)
  marked hn := by
    obtain ⟨h1, h2, h3⟩ := h.marked hn
    obtain ⟨h4, h5⟩ := hmark hn h1 h2
    rw [hsb, h4]
    refine ⟨h1, h2, fun he => ?_⟩
    rw [(h5 he).2]
    exact h3 (h5 he).1
  dots := h.dots

/-- Another process keeps its references. -/
theorem CrInv.total_goto (h : s.CrInv c) (i : Fin NINODE) (pc : CreatePc) (fs : Fs) :
    Total (fun q => (((s.goto p pc fs).proc q).refs.count i : ℤ))
      ((s.ip i).ref - c.base i - (if i = c.e ∧ s.iput ≠ .done then 1 else 0) -
        (s.proc p).refs.count i + pc.refs.count i) := by
  have ht := (h.refs i).update p (pc.refs.count i : ℤ)
  have heq : (update (fun q => ((s.proc q).refs.count i : ℤ)) p (pc.refs.count i : ℤ)) =
      fun q => (((s.goto p pc fs).proc q).refs.count i : ℤ) := by
    funext q
    by_cases hq : q = p
    · rw [hq, update_self, goto_self]
    · rw [update_of_ne hq, goto_ne hq]
  rwa [heq] at ht

/-- **A step that changes no reference and no type.** -/
theorem CrInv.frame (h : s.CrInv c) (hsb : fs.sb = s.fs.sb)
    (hent : ∀ j, (fs.icache j).dev = (s.ip j).dev ∧ (fs.icache j).inum = (s.ip j).inum ∧
      (fs.icache j).ref = (s.ip j).ref)
    (hvalid : ∀ j, (s.ip j).valid = true → (fs.icache j).valid = true)
    (htype : ∀ n < s.fs.sb.ninodes, (dinodeAt s.fs.sb fs.disk n).type = (s.dinode n).type)
    (hlinked : ∀ n < s.fs.sb.ninodes, (dinodeAt s.fs.sb fs.disk n).nlink ≠ 0 →
      (s.dinode n).type ≠ 0)
    (hfrees : s.iput.Frees → (fs.icache c.e).di = (s.ip c.e).di ∧
      (dinodeAt s.fs.sb fs.disk (s.ip c.e).inum).nlink = (s.dinode (s.ip c.e).inum).nlink)
    (hsync : ∀ j, 0 < (s.ip j).ref → ¬ s.Freeing c j → (s.goto p pc fs).Loaded j →
      (s.goto p pc fs).Synced j)
    (hrefs : ∀ j, pc.refs.count j = (s.proc p).refs.count j)
    (hpc : (s.goto p pc fs).PcOk c p pc)
    (hwait : s.iput = .last → c.e ∈ pc.refs → pc.Waiting c.e) : (s.goto p pc fs).CrInv c := by
  have hdt : ∀ {j}, 0 < (s.ip j).ref → (dinodeAt fs.sb fs.disk (s.ip j).inum).type =
      (s.dinode (s.ip j).inum).type := fun hj => by
    rw [hsb]
    exact htype _ (h.entry hj).2
  refine ⟨by rw [goto_fs, hsb]; exact h.ok, fun {j} hj => ?_,
    fun {j k} hj hk heq => ?_, fun j => ?_, fun {j} hj hl => ?_, fun {j} hj hl hf => ?_,
    fun {n} hn hne => ?_, fun q => ?_, ?_, h.panicked⟩
  · rw [goto_ip, (hent j).1, (hent j).2.1]
    rw [goto_ip, (hent j).2.2] at hj
    rw [goto_fs, hsb]
    exact h.entry hj
  · rw [goto_ip, (hent j).2.2] at hj
    rw [goto_ip, (hent k).2.2] at hk
    rw [goto_ip, goto_ip, (hent j).2.1, (hent k).2.1] at heq
    exact h.once hj hk heq
  · have ht := h.total_goto (p := p) j pc fs
    rw [hrefs j, sub_add_cancel] at ht
    rw [goto_ip, (hent j).2.2]
    exact ht
  · rw [goto_ip, (hent j).2.2] at hj
    rw [goto_ip, goto_dinode, (hent j).2.1, hdt hj]
    exact h.type hj hl
  · rw [goto_ip, (hent j).2.2] at hj
    exact hsync j hj hf hl
  · rw [goto_dinode, hsb] at hne ⊢
    rw [goto_fs, hsb] at hn
    rw [htype n hn]
    exact hlinked n hn hne
  · refine goto_proc hpc (fun q => ?_) q
    refine (h.proc q).other hsb (fun {j} hj => ⟨(hent j).2.1, hdt (h.ref_pos hj)⟩)
      (fun {j} _ hv => hvalid j hv) fun {n} _ hn _ => ⟨?_, fun he => ⟨he, (hent c.e).2.1⟩⟩
    rw [goto_dinode, hsb]
    exact htype n hn
  · have hmem : c.e ∈ pc.refs → c.e ∈ (s.proc p).refs := fun he => by
      rwa [← List.count_pos_iff, ← hrefs, List.count_pos_iff]
    refine ⟨fun hf => ?_, fun hf he => ?_, fun ht => ?_,
      fun hl => waiting_goto (hwait hl) (h.iput.last hl)⟩
    · rw [goto_ip, goto_dinode, (hent c.e).2.1, hsb, (hfrees hf).2]
      exact h.iput.frees hf
    · rw [goto_ip, (hfrees hf).1]
      exact ⟨(h.iput.early hf he).1, fun q hq =>
        (h.iput.early hf he).2 q (mem_refs_of_goto hmem hq)⟩
    · have hf : s.iput.Frees := by
        rcases ht with ht | ht <;> rw [goto_iput] at ht <;> rw [ht] <;> trivial
      rw [goto_ip, (hfrees hf).1]
      exact h.iput.trunc ht

/-- The process goes on from `pc` to `pc'` with the same inodes. -/
structure Follows (c : Creates) (p : ℕ) (pc pc' : CreatePc) : Prop where
  refs : ∀ j, pc'.refs.count j = pc.refs.count j
  dir : ∀ {j}, pc'.dir = some j → pc.dir = some j
  newIp : ∀ {j}, pc'.newIp = some j → pc.newIp = some j
  marked : pc'.marked = none
  dots : pc'.Dots → pc.Dots ∨ (c.args p).type = T_DIR

theorem Follows.mem_refs {pc' : CreatePc} (hf : Follows c p pc pc') {j : Fin NINODE} (hj : j ∈ pc'.refs) :
    j ∈ pc.refs := by
  rw [← List.count_pos_iff, ← hf.refs]
  exact List.count_pos_iff.2 hj

theorem PcOk.follows {pc' : CreatePc} (h : s.PcOk c p pc) (hf : Follows c p pc pc')
    (hvalid : ∀ {j}, j ∈ pc'.valids → j ∈ pc.valids ∨ (s.ip j).valid = true) : s.PcOk c p pc' where
  dir hj := h.dir (hf.dir hj)
  newIp hj := h.newIp (hf.newIp hj)
  valid hj := (hvalid hj).elim h.valid id
  marked hn := by rw [hf.marked] at hn; cases hn
  dots hd := (hf.dots hd).elim h.dots id

/-- A step that changes nothing but where the process is. -/
theorem CrInv.move (h : s.CrInv c) (hat : s.proc p = pc₀) (hf : Follows c p pc₀ pc)
    (hvalid : ∀ {j}, j ∈ pc.valids → j ∈ pc₀.valids ∨ (s.ip j).valid = true)
    (hdirty : ∀ {j}, pc₀.dirty = some j → pc.dirty = some j)
    (hloaded : pc.loaded = none) (hwait : s.iput = .last → c.e ∈ pc.refs → pc.Waiting c.e) :
    (s.goto p pc s.fs).CrInv c := by
  subst hat
  have hok : s.PcOk c p pc := (h.proc p).follows hf hvalid
  refine h.frame rfl (fun _ => ⟨rfl, rfl, rfl⟩) (fun _ => id) (fun _ _ => rfl)
    (fun n hn hne => h.linked hn hne) (fun _ => ⟨rfl, rfl⟩) (fun j hj hfr hl => ?_) hf.refs
    ⟨hok.dir, hok.newIp, hok.valid, hok.marked, hok.dots⟩ hwait
  have hs := h.synced hj (hl.of_goto id (by rw [hloaded]; rintro ⟨⟩)) hfr
  exact ⟨hs.1, fun hd => hs.2 (clean_of_goto hd hdirty)⟩

variable {ip' : Inode}

/-- **A step that changes the inode of entry `i`, in memory or on disk, but not its type.** -/
theorem CrInv.touch (h : s.CrInv c) (hat : s.proc p = pc₀) {d : Disk} (hi : i ∈ pc₀.refs)
    (hfr : ¬ s.Freeing c i) (hdev : ip'.dev = (s.ip i).dev) (hinum : ip'.inum = (s.ip i).inum)
    (href : ip'.ref = (s.ip i).ref) (hv : (s.ip i).valid = true → ip'.valid = true)
    (htype : ∀ n < s.fs.sb.ninodes, (dinodeAt s.fs.sb d n).type = (s.dinode n).type)
    (hnlink : ∀ n < s.fs.sb.ninodes, n ≠ (s.ip i).inum →
      (dinodeAt s.fs.sb d n).nlink = (s.dinode n).nlink)
    (hsync : (ip'.valid = true ∨ pc.loaded = some i ∨ s.Loaded i) →
      ip'.di.type = (s.dinode (s.ip i).inum).type ∧
        ((∀ q, ((s.goto p pc s.fs).proc q).dirty ≠ some i) →
          ip'.di.nlink = (dinodeAt s.fs.sb d (s.ip i).inum).nlink))
    (hf : Follows c p pc₀ pc)
    (hvalid : ∀ {j}, j ∈ pc.valids → j ∈ pc₀.valids ∨ j = i ∧ ip'.valid = true)
    (hdirty : ∀ {j}, j ≠ i → pc₀.dirty = some j → pc.dirty = some j)
    (hloaded : ∀ {j}, j ≠ i → pc.loaded ≠ some j) (hwait : ¬ pc₀.Waiting c.e) :
    (s.goto p pc (s.fs.put i ip' d)).CrInv c := by
  subst hat
  have hpos := h.ref_pos hi
  have hself : (s.fs.put i ip' d).icache i = ip' := Fs.put_self ..
  have hne : ∀ {j}, j ≠ i → (s.fs.put i ip' d).icache j = s.ip j := s.fs.put_ne ip' d
  have hent : ∀ j, ((s.fs.put i ip' d).icache j).dev = (s.ip j).dev ∧
      ((s.fs.put i ip' d).icache j).inum = (s.ip j).inum ∧
      ((s.fs.put i ip' d).icache j).ref = (s.ip j).ref := by
    intro j
    by_cases hj : j = i
    · subst hj
      rw [hself]
      exact ⟨hdev, hinum, href⟩
    · rw [hne hj]
      exact ⟨rfl, rfl, rfl⟩
  have hval : ∀ j, (s.ip j).valid = true → ((s.fs.put i ip' d).icache j).valid = true := by
    intro j hj
    by_cases hji : j = i
    · subst hji
      rw [hself]
      exact hv hj
    · rwa [hne hji]
  have hok : (s.goto p pc (s.fs.put i ip' d)).PcOk c p (s.proc p) :=
    (h.proc p).other rfl (fun {j} hj => ⟨(hent j).2.1, htype _ (h.entry (h.ref_pos hj)).2⟩)
      (fun {j} _ => hval j) fun {n} _ hn _ => ⟨htype n hn, fun he => ⟨he, (hent c.e).2.1⟩⟩
  refine h.frame rfl hent hval htype (fun n hn hnl => ?_) (fun hfe => ?_) (fun j hj hfj hl => ?_)
    hf.refs (hok.follows hf fun {j} hj => (hvalid hj).imp_right ?_)
    fun hl he => absurd (h.iput.last hl p (hf.mem_refs he)) hwait
  · by_cases hni : n = (s.ip i).inum
    · rw [hni]
      exact h.type hpos fun hc => hfr ⟨hc.1, by rw [hc.2]; trivial⟩
    · rw [Fs.put_disk, hnlink n hn hni] at hnl
      exact h.linked hn hnl
  · -- the entry that is freed is another one
    have hei : c.e ≠ i := fun hei => hfr ⟨hei.symm, hfe⟩
    rw [hne hei]
    have hre := h.ref_e hfe.ne_done
    exact ⟨rfl, hnlink _ (h.entry hre).2 fun heq => hei (h.once hre hpos heq)⟩
  · by_cases hji : j = i
    · subst hji
      have := hsync ?_
      · simp only [Synced, goto_ip, hself, hinum, goto_dinode]
        rw [Fs.put_sb, Fs.put_disk, htype _ (h.entry hpos).2]
        exact this
      · rcases hl with hl | ⟨q, hq⟩
        · rw [goto_ip, hself] at hl
          exact .inl hl
        · by_cases hqp : q = p
          · rw [hqp, goto_self] at hq
            exact .inr (.inl hq)
          · rw [goto_ne hqp] at hq
            exact .inr (.inr (.inr ⟨q, hq⟩))
    · have hs := h.synced hj (hl.of_goto (by rw [hne hji]; exact id) (hloaded hji)) hfj
      have hnj : (s.ip j).inum ≠ (s.ip i).inum := fun heq => hji (h.once hj hpos heq)
      simp only [Synced, goto_ip, hne hji, goto_dinode]
      rw [Fs.put_sb, Fs.put_disk, htype _ (h.entry hj).2, hnlink _ (h.entry hj).2 hnj]
      exact ⟨hs.1, fun hd => hs.2 (clean_of_goto hd (hdirty hji))⟩
  · rintro ⟨rfl, hv'⟩
    rw [goto_ip, hself]
    exact hv'

/-- The inodes that a process refers to are allocated on disk. -/
theorem CrInv.type_of_refs (h : s.CrInv c) (hi : i ∈ (s.proc p).refs) :
    (s.dinode (s.ip i).inum).type ≠ 0 := by
  by_cases hl : i = c.e ∧ s.iput = .last
  · obtain ⟨rfl, hl⟩ := hl
    have hw := h.iput.last hl p hi
    have hn : (s.proc p).newIp = some c.e := CreatePc.newIp_of_waiting hw
    rw [(h.proc p).newIp hn]
    exact c.args_type p
  · exact h.type (h.ref_pos hi) hl

/-- **A process gets a reference to entry `i`**, which was referenced before or is recycled. -/
theorem CrInv.take (h : s.CrInv c) (hat : s.proc p = pc₀) (hdev : ip'.dev = ROOTDEV)
    (hinum : ip'.inum < s.fs.sb.ninodes) (href : ip'.ref = (s.ip i).ref + 1)
    (hcase : 0 < (s.ip i).ref ∧ ip' = { s.ip i with ref := (s.ip i).ref + 1 } ∨
      (s.ip i).ref = 0 ∧ ip'.valid = false ∧ ∀ j, 0 < (s.ip j).ref → (s.ip j).inum ≠ ip'.inum)
    (htype : ¬ (i = c.e ∧ s.iput = .last) → (s.dinode ip'.inum).type ≠ 0)
    (hearly : s.iput.Frees → s.iput.Early → i ≠ c.e)
    (hrefs : ∀ j, pc.refs.count j = pc₀.refs.count j + if j = i then 1 else 0)
    (hpc : (s.goto p pc (s.setIp i ip')).PcOk c p pc₀ →
      (s.goto p pc (s.setIp i ip')).PcOk c p pc)
    (hdirty : pc₀.dirty = none) (hloaded : pc.loaded = none)
    (hwait : s.iput = .last → c.e ∈ pc.refs → pc.Waiting c.e) :
    (s.goto p pc (s.setIp i ip')).CrInv c := by
  subst hat
  have hself : (s.setIp i ip').icache i = ip' := Fs.put_self ..
  have hne : ∀ {j}, j ≠ i → (s.setIp i ip').icache j = s.ip j := s.fs.put_ne ip' _
  -- an entry that is in use keeps its inode
  have hkeep : ∀ {j}, 0 < (s.ip j).ref → (s.setIp i ip').icache j = { s.ip j with
      ref := (s.ip j).ref + if j = i then 1 else 0 } := by
    intro j hj
    by_cases hji : j = i
    · subst hji
      rw [hself, if_pos rfl]
      rcases hcase with ⟨-, heq⟩ | ⟨h0, -⟩
      · exact heq
      · omega
    · rw [hne hji, if_neg hji]
      rfl
  have hedone : s.iput ≠ .done → ((s.setIp i ip').icache c.e).inum = (s.ip c.e).inum ∧
      ((s.setIp i ip').icache c.e).di = (s.ip c.e).di := fun hd => by
    rw [hkeep (h.ref_e hd)]
    exact ⟨rfl, rfl⟩
  have hok : ∀ q, (s.goto p pc (s.setIp i ip')).PcOk c q (s.proc q) := fun q =>
    (h.proc q).other rfl (fun {j} hj => ⟨by rw [goto_ip, hkeep (h.ref_pos hj)], rfl⟩)
      (fun {j} hj hv => by rw [goto_ip, hkeep (h.ref_pos (CreatePc.mem_refs_of_valids hj))]; exact hv)
      fun _ _ _ => ⟨rfl, fun he => ⟨he, (hedone he.ne_done).1⟩⟩
  have hnum : ∀ {j}, 0 < (s.ip j).ref → j ≠ i → (s.ip j).inum ≠ ip'.inum := by
    intro j hj hji heq
    rcases hcase with ⟨hi, hip⟩ | ⟨-, -, hno⟩
    · rw [hip] at heq
      exact hji (h.once hj hi heq)
    · exact hno j hj heq
  refine ⟨h.ok, fun {j} hj => ?_, fun {j k} hj hk heq => ?_, fun j => ?_, fun {j} hj hl => ?_,
    fun {j} hj hl hfr => ?_, h.linked, fun q => ?_, ?_, h.panicked⟩
  · by_cases hji : j = i
    · subst hji
      rw [goto_ip, hself]
      exact ⟨hdev, hinum⟩
    · rw [goto_ip, hne hji] at hj ⊢
      exact h.entry hj
  · simp only [goto_ip] at hj hk heq
    by_cases hji : j = i
    · subst hji
      by_cases hkj : k = j
      · exact hkj.symm
      · rw [hne hkj] at hk heq
        rw [hself] at heq
        exact absurd heq.symm (hnum hk hkj)
    · rw [hne hji] at hj heq
      by_cases hki : k = i
      · subst hki
        rw [hself] at heq
        exact absurd heq (hnum hj hji)
      · rw [hne hki] at hk heq
        exact h.once hj hk heq
  · have ht := h.total_goto (p := p) j pc (s.setIp i ip')
    rw [hrefs j] at ht
    by_cases hji : j = i
    · subst hji
      rw [goto_ip, hself, href]
      rw [if_pos rfl] at ht
      convert ht using 1
      push_cast
      rw [goto_iput]
      omega
    · rw [goto_ip, hne hji]
      rw [if_neg hji, Nat.add_zero, sub_add_cancel] at ht
      exact ht
  · by_cases hji : j = i
    · subst hji
      rw [goto_ip, hself]
      exact htype hl
    · rw [goto_ip, hne hji] at hj ⊢
      exact h.type hj hl
  · have hl' : s.Loaded j ∧ 0 < (s.ip j).ref := by
      rcases hl with hl | ⟨q, hq⟩
      · by_cases hji : j = i
        · subst hji
          rw [goto_ip, hself] at hl
          rcases hcase with ⟨hi, hip⟩ | ⟨-, hv, -⟩
          · rw [hip] at hl
            exact ⟨.inl hl, hi⟩
          · rw [hv] at hl
            cases hl
        · rw [goto_ip, hne hji] at hl hj
          exact ⟨.inl hl, hj⟩
      · by_cases hqp : q = p
        · rw [hqp, goto_self, hloaded] at hq
          cases hq
        · rw [goto_ne hqp] at hq
          exact ⟨.inr ⟨q, hq⟩, h.ref_pos (CreatePc.mem_refs_of_loaded hq)⟩
    have hs := h.synced hl'.2 hl'.1 hfr
    rw [Synced, goto_ip, hkeep hl'.2]
    exact ⟨hs.1, fun hd => hs.2 (clean_of_goto hd (by rw [hdirty]; rintro ⟨⟩))⟩
  · exact goto_proc (hpc (hok p)) hok q
  · refine ⟨fun hf => ?_, fun hf he => ⟨?_, fun q hq => (h.iput.early hf he).2 q
        (mem_refs_of_goto (fun hp => ?_) hq)⟩, fun ht => ?_, fun hl => waiting_goto (hwait hl) (h.iput.last hl)⟩
    · rw [goto_ip, (hedone hf.ne_done).1]
      exact h.iput.frees hf
    · rw [goto_ip, (hedone hf.ne_done).2]
      exact (h.iput.early hf he).1
    · rwa [← List.count_pos_iff, hrefs, if_neg (hearly hf he).symm, Nat.add_zero,
        List.count_pos_iff] at hp
    · have hd : s.iput ≠ .done := by
        rw [goto_iput] at ht
        rcases ht with ht | ht <;> rw [ht] <;> rintro ⟨⟩
      rw [goto_ip, (hedone hd).2]
      exact h.iput.trunc ht

/-- **A process drops a reference to entry `i`** that is not being freed. -/
theorem CrInv.drop (h : s.CrInv c) (hat : s.proc p = pc₀) (hi : i ∈ pc₀.refs)
    (hrefs : ∀ j, pc.refs.count j = pc₀.refs.count j - if j = i then 1 else 0)
    (hpc : s.PcOk c p pc) (hdirty : pc₀.dirty = none) (hloaded : pc.loaded = none)
    (hwait : ¬ pc₀.Waiting c.e) :
    (s.goto p pc (s.setIp i { s.ip i with ref := (s.ip i).ref - 1 })).CrInv c := by
  subst hat
  set fs := s.setIp i { s.ip i with ref := (s.ip i).ref - 1 } with hfs
  have hent : ∀ j, fs.icache j = { s.ip j with ref := (s.ip j).ref - if j = i then 1 else 0 } := by
    intro j
    by_cases hji : j = i
    · subst hji
      rw [hfs, setIp, Fs.put_self, if_pos rfl]
    · rw [hfs, setIp, Fs.put_ne _ _ _ hji, if_neg hji]
      rfl
  have hpos : ∀ {j}, 0 < ((s.goto p pc fs).ip j).ref → 0 < (s.ip j).ref := by
    intro j hj
    rw [goto_ip, hent] at hj
    exact lt_of_lt_of_le hj (Nat.sub_le _ _)
  have hmem : ∀ {j}, j ∈ pc.refs → j ∈ (s.proc p).refs := fun {j} hj => by
    rw [← List.count_pos_iff, hrefs] at hj
    exact List.count_pos_iff.1 (lt_of_lt_of_le hj (Nat.sub_le _ _))
  refine ⟨h.ok, fun {j} hj => ?_, fun {j k} hj hk heq => ?_, fun j => ?_, fun {j} hj hl => ?_,
    fun {j} hj hl hfr => ?_, h.linked, fun q => ?_, ?_, h.panicked⟩
  · rw [goto_ip, hent]
    exact h.entry (hpos hj)
  · rw [goto_ip, goto_ip, hent, hent] at heq
    exact h.once (hpos hj) (hpos hk) heq
  · have ht := h.total_goto (p := p) j pc fs
    rw [hrefs j] at ht
    rw [goto_ip, hent, goto_iput]
    convert ht using 1
    have h1 := h.ref_pos hi
    have h2 : 0 < (s.proc p).refs.count i := List.count_pos_iff.2 hi
    by_cases hji : j = i
    · subst hji
      simp only [if_true]
      omega
    · simp only [if_neg hji]
      omega
  · rw [goto_ip, hent]
    exact h.type (hpos hj) hl
  · have hl' : s.Loaded j := hl.of_goto (by rw [hent]; exact id) (by rw [hloaded]; rintro ⟨⟩)
    have hs := h.synced (hpos hj) hl' hfr
    rw [Synced, goto_ip, hent]
    exact ⟨hs.1, fun hd => hs.2 (clean_of_goto hd (by rw [hdirty]; rintro ⟨⟩))⟩
  · have hok : ∀ {q pc'}, s.PcOk c q pc' → (s.goto p pc fs).PcOk c q pc' := fun hq =>
      hq.other rfl (fun {j} _ => ⟨by rw [goto_ip, hent], rfl⟩)
        (fun {j} _ hv => by rw [goto_ip, hent]; exact hv)
        fun _ _ _ => ⟨rfl, fun he => ⟨he, by rw [goto_ip, hent]⟩⟩
    exact goto_proc (hok hpc) (fun q => hok (h.proc q)) q
  · refine ⟨fun hf => ?_, fun hf he => ?_, fun ht => ?_, fun hl => waiting_goto
      (fun hq => absurd (h.iput.last hl p (hmem hq)) hwait) (h.iput.last hl)⟩
    · rw [goto_ip, hent]
      exact h.iput.frees hf
    · rw [goto_ip, hent]
      exact ⟨(h.iput.early hf he).1, fun q hq =>
        (h.iput.early hf he).2 q (mem_refs_of_goto hmem hq)⟩
    · rw [goto_ip, hent]
      exact h.iput.trunc ht

/-- **`ialloc` marks a free inode.** -/
theorem CrInv.mark (h : s.CrInv c) {dp : Fin NINODE} {n : ℕ} (hpc : s.proc p = .ialloc dp n)
    (hn : n < s.fs.sb.ninodes) (h0 : (s.dinode n).type = 0) :
    (s.goto p (.iget dp n) (s.markInode n (c.args p).type)).CrInv c := by
  set fs := s.markInode n (c.args p).type with hfs
  have hdi : ∀ m < s.fs.sb.ninodes, dinodeAt fs.sb fs.disk m =
      if m = n then { Dinode.zero with type := (c.args p).type } else s.dinode m := fun m hm => by
    rw [hfs, markInode, dinodeAt_setDinode h.ok hn hm]
    rfl
  have hne : ∀ {m}, m < s.fs.sb.ninodes → (s.dinode m).type ≠ 0 →
      dinodeAt fs.sb fs.disk m = s.dinode m := fun {m} hm ht => by
    rw [hdi m hm, if_neg fun hmn : m = n => ht (hmn ▸ h0)]
  -- in the entry that is freed, the inode may be free
  have hother : ∀ {j}, 0 < (s.ip j).ref → ¬ (j = c.e ∧ s.iput = .last) →
      dinodeAt fs.sb fs.disk (s.ip j).inum = s.dinode (s.ip j).inum := fun hj hl =>
    hne (h.entry hj).2 (h.type hj hl)
  have hrefs : (CreatePc.iget dp n).refs = (s.proc p).refs := by rw [hpc]; rfl
  have hmem : ∀ {q}, ((s.goto p (.iget dp n) fs).proc q).refs = (s.proc q).refs := fun {q} =>
    goto_proc (P := fun q pc => pc.refs = (s.proc q).refs) hrefs (fun _ => rfl) q
  have hok : ∀ q, (s.goto p (.iget dp n) fs).PcOk c q (s.proc q) := fun q =>
    (h.proc q).other rfl
      (fun {j} hj => ⟨rfl, by
        rw [goto_dinode, hne (h.entry (h.ref_pos hj)).2 (h.type_of_refs hj)]⟩)
      (fun _ hv => hv) fun hm hlt ht => ⟨by
        rw [goto_dinode, hne hlt (by rw [ht]; exact c.args_type q)], fun he => ⟨he, rfl⟩⟩
  refine ⟨h.ok, h.entry, h.once, fun j => ?_, fun {j} hj hl => ?_, fun {j} hj hl hfr => ?_,
    fun {m} hm hnl => ?_, fun q => ?_, ?_, h.panicked⟩
  · simp only [hmem]
    exact h.refs j
  · rw [goto_dinode, goto_ip, show fs.icache j = s.ip j from rfl, hother hj hl]
    exact h.type hj hl
  · have hnl : ¬ (j = c.e ∧ s.iput = .last) := fun hc => hfr ⟨hc.1, by rw [goto_iput, hc.2]; trivial⟩
    have hs := h.synced hj (hl.of_goto id (by rintro ⟨⟩)) hfr
    rw [Synced, goto_dinode, goto_ip, show fs.icache j = s.ip j from rfl, hother hj hnl]
    exact ⟨hs.1, fun hd => hs.2 (clean_of_goto hd (by rw [hpc]; rintro ⟨⟩))⟩
  · rw [goto_dinode, hdi m hm] at hnl ⊢
    split_ifs at hnl ⊢ with hmn
    · exact absurd rfl hnl
    · exact h.linked hm hnl
  · have hp := hok p
    rw [hpc] at hp
    refine goto_proc ⟨hp.dir, by rintro _ ⟨⟩, hp.valid, fun hm => ?_, by rintro ⟨⟩⟩ hok q
    cases hm
    rw [goto_dinode, hdi n hn, if_pos rfl]
    refine ⟨hn, rfl, fun he heq => ?_⟩
    refine h.type (h.ref_e he.ne_done) (fun hc => ?_) (heq ▸ h0)
    rw [goto_iput, hc.2] at he
    exact he
  · refine ⟨fun hf => ⟨(h.iput.frees hf).1, ?_⟩, fun hf he => ⟨(h.iput.early hf he).1, fun q => ?_⟩,
      h.iput.trunc, fun hl => waiting_goto (fun hq => ?_) (h.iput.last hl)⟩
    · rw [goto_ip, goto_dinode, show fs.icache c.e = s.ip c.e from rfl,
        hdi _ (h.entry (h.ref_e hf.ne_done)).2]
      split_ifs
      · rfl
      · exact (h.iput.frees hf).2
    · rw [hmem]
      exact (h.iput.early hf he).2 q
    · have := h.iput.last hl p (hrefs ▸ hq)
      rw [hpc] at this
      cases this

/-! ## Steps of `iput` -/

/-- A process that holds no reference to entry `i` does not change its link count. -/
theorem CrInv.synced_nlink (h : s.CrInv c) (hno : ∀ p, i ∉ (s.proc p).refs) (hi : 0 < (s.ip i).ref)
    (hv : (s.ip i).valid = true) (hfr : ¬ s.Freeing c i) :
    (s.ip i).di.nlink = (s.dinode (s.ip i).inum).nlink :=
  (h.synced hi (.inl hv) hfr).2 fun q hq => hno q (CreatePc.mem_refs_of_dirty hq)

/-- The last reference to an inode without links. -/
theorem CrInv.begin (h : s.CrInv c) (hp : s.iput = .test) (hr : (s.ip c.e).ref = 1)
    (hv : (s.ip c.e).valid = true) (hn : (s.ip c.e).di.nlink = 0) :
    { s with iput := .trunc }.CrInv c := by
  have hpos : 0 < (s.ip c.e).ref := by omega
  have ht := h.refs c.e
  rw [hr, hp, if_pos ⟨rfl, by rintro ⟨⟩⟩] at ht
  have hsum := ht.nonneg (s.count_nonneg c.e)
  have hbase : c.base c.e = 0 := by omega
  have hno : ∀ p, c.e ∉ (s.proc p).refs := fun p hp => by
    have h1 := ht.le (s.count_nonneg c.e) p
    have h2 : 0 < (s.proc p).refs.count c.e := List.count_pos_iff.2 hp
    omega
  have hfr : ¬ s.Freeing c c.e := fun hf => by have := hf.2; rw [hp] at this; exact this
  refine ⟨h.ok, h.entry, h.once, fun i => ?_, fun hi _ => h.type hi (fun hc => ?_),
    fun hi hl _ => h.synced hi hl fun hf => ?_, h.linked, fun q => ?_, ?_, h.panicked⟩
  · have := h.refs i
    simp only [hp, ne_eq, reduceCtorEq, not_false_eq_true, and_true] at this ⊢
    exact this
  · rw [hp] at hc
    cases hc.2
  · have := hf.2
    rw [hp] at this
    exact this
  · exact (h.proc q).other rfl (fun _ => ⟨rfl, rfl⟩) (fun _ => id) fun _ _ _ =>
      ⟨rfl, fun _ => ⟨by rw [hp]; trivial, rfl⟩⟩
  · refine ⟨fun _ => ⟨hbase, ?_⟩, fun _ _ => ⟨hn, hno⟩, fun _ => ?_, by rintro ⟨⟩⟩
    · exact (h.synced_nlink hno hpos hv hfr).symm.trans hn
    · have hs := (h.synced hpos (.inl hv) hfr).1
      change (s.ip c.e).di.type ≠ 0
      rw [hs]
      exact h.type hpos fun hc => by rw [hp] at hc; cases hc.2

/-- **A step of `iput` while it frees the inode.**  Nobody else has a reference to it. -/
theorem CrInv.free (h : s.CrInv c) (hf : s.iput.Frees) (he : s.iput.Early) {d : Disk}
    {pc' : IputPc} (hf' : pc'.Frees) (hinum : ip'.inum = (s.ip c.e).inum)
    (hdev : ip'.dev = (s.ip c.e).dev) (href : ip'.ref = (s.ip c.e).ref)
    (hother : ∀ n < s.fs.sb.ninodes, n ≠ (s.ip c.e).inum →
      dinodeAt s.fs.sb d n = s.dinode n)
    (hnlink : (dinodeAt s.fs.sb d (s.ip c.e).inum).nlink = 0)
    (htype : pc' ≠ .last → (dinodeAt s.fs.sb d (s.ip c.e).inum).type ≠ 0)
    (hmem : pc'.Early → ip'.di.nlink = 0)
    (htrunc : pc' = .trunc ∨ pc' = .clear → ip'.di.type ≠ 0) :
    { s with fs := s.fs.put c.e ip' d, iput := pc' }.CrInv c := by
  set s' : CrState := { s with fs := s.fs.put c.e ip' d, iput := pc' } with hs'
  have hpos := h.ref_e hf.ne_done
  have hno := (h.iput.early hf he).2
  have hself : s'.ip c.e = ip' := Fs.put_self ..
  have hne : ∀ {j}, j ≠ c.e → s'.ip j = s.ip j := s.fs.put_ne ip' d
  have hent : ∀ j, (s'.ip j).inum = (s.ip j).inum ∧ (s'.ip j).dev = (s.ip j).dev ∧
      (s'.ip j).ref = (s.ip j).ref := by
    intro j
    by_cases hj : j = c.e
    · rw [hj, hself]
      exact ⟨hinum, hdev, href⟩
    · rw [hne hj]
      exact ⟨rfl, rfl, rfl⟩
  have hdi : ∀ {j}, 0 < (s.ip j).ref → j ≠ c.e → s'.dinode (s.ip j).inum = s.dinode (s.ip j).inum :=
    fun hj hje => hother _ (h.entry hj).2 fun heq => hje (h.once hj hpos heq)
  have href' : ∀ {q j}, j ∈ (s.proc q).refs → j ≠ c.e := fun {q j} hj hje => hno q (hje ▸ hj)
  refine ⟨h.ok, fun {j} hj => ?_, fun {j k} hj hk heq => ?_, fun j => ?_, fun {j} hj hl => ?_,
    fun {j} hj hl hfr => ?_, fun {n} hn hnl => ?_, fun q => ?_, ?_, h.panicked⟩
  · rw [(hent j).2.2] at hj
    rw [(hent j).1, (hent j).2.1]
    exact h.entry hj
  · rw [(hent j).2.2] at hj
    rw [(hent k).2.2] at hk
    rw [(hent j).1, (hent k).1] at heq
    exact h.once hj hk heq
  · have ht := h.refs j
    simp only [hf.ne_done, ne_eq, not_false_eq_true, and_true] at ht
    rw [(hent j).2.2]
    simp only [hs', hf'.ne_done, ne_eq, not_false_eq_true, and_true]
    exact ht
  · rw [(hent j).2.2] at hj
    rw [(hent j).1]
    by_cases hje : j = c.e
    · subst hje
      exact htype fun hp => hl ⟨rfl, hp⟩
    · rw [hdi hj hje]
      exact h.type hj fun hc => hje hc.1
  · have hje : j ≠ c.e := fun hje => hfr ⟨hje, hf'⟩
    rw [(hent j).2.2] at hj
    have hl' : s.Loaded j := by
      rw [Loaded, hne hje] at hl
      exact hl
    have := h.synced hj hl' fun hc => hje hc.1
    rw [Synced, hne hje, hdi hj hje]
    exact this
  · by_cases hne' : n = (s.ip c.e).inum
    · subst hne'
      exact absurd hnlink hnl
    · have heq : s'.dinode n = s.dinode n := hother n hn hne'
      rw [heq] at hnl ⊢
      exact h.linked hn hnl
  · refine (h.proc q).other rfl (fun {j} hj => ⟨(hent j).1, by rw [hdi (h.ref_pos hj) (href' hj)]⟩)
      (fun {j} hj hv => ?_) fun {n} hm hlt ht => ⟨?_, fun _ => ⟨he, (hent c.e).1⟩⟩
    · rw [hne (href' (CreatePc.mem_refs_of_valids hj))]
      exact hv
    · exact congrArg Dinode.type (hother n hlt (((h.proc q).marked hm).2.2 he))
  · refine ⟨fun _ => ⟨(h.iput.frees hf).1, ?_⟩, fun _ he' => ⟨?_, hno⟩, fun ht => ?_, fun _ q hq => ?_⟩
    · rw [(hent c.e).1]
      exact hnlink
    · rw [hself]
      exact hmem he'
    · rw [hself]
      exact htrunc ht
    · exact absurd hq (hno q)

/-- **The last section of `iput`.** -/
theorem CrInv.finish (h : s.CrInv c) (hd : s.iput ≠ .done) {v : Bool}
    (hv : ¬ s.iput.Frees → v = (s.ip c.e).valid) (hv' : s.iput.Frees → v = false) :
    { s with fs := s.setIp c.e { s.ip c.e with valid := v, ref := (s.ip c.e).ref - 1 },
             iput := .done }.CrInv c := by
  set s' : CrState := { s with
    fs := s.setIp c.e { s.ip c.e with valid := v, ref := (s.ip c.e).ref - 1 }, iput := .done } with hs'
  have hpos := h.ref_e hd
  have hself : s'.ip c.e = { s.ip c.e with valid := v, ref := (s.ip c.e).ref - 1 } := Fs.put_self ..
  have hne : ∀ {j}, j ≠ c.e → s'.ip j = s.ip j := s.fs.put_ne _ _
  have hent : ∀ j, (s'.ip j).inum = (s.ip j).inum ∧ (s'.ip j).dev = (s.ip j).dev ∧
      (s'.ip j).di = (s.ip j).di ∧ (s'.ip j).ref = (s.ip j).ref - if j = c.e then 1 else 0 := by
    intro j
    by_cases hj : j = c.e
    · rw [hj, hself, if_pos rfl]
      exact ⟨rfl, rfl, rfl, rfl⟩
    · rw [hne hj, if_neg hj]
      exact ⟨rfl, rfl, rfl, rfl⟩
  have hpos' : ∀ {j}, 0 < (s'.ip j).ref → 0 < (s.ip j).ref := fun {j} hj => by
    rw [(hent j).2.2.2] at hj
    exact lt_of_lt_of_le hj (Nat.sub_le _ _)
  have hfin : ¬ s'.iput.Frees := id
  refine ⟨h.ok, fun {j} hj => ?_, fun {j k} hj hk heq => ?_, fun j => ?_, fun {j} hj hl => ?_,
    fun {j} hj hl hfr => ?_, h.linked, fun q => ?_, ?_, h.panicked⟩
  · rw [(hent j).1, (hent j).2.1]
    exact h.entry (hpos' hj)
  · rw [(hent j).1, (hent k).1] at heq
    exact h.once (hpos' hj) (hpos' hk) heq
  · have ht := h.refs j
    rw [(hent j).2.2.2]
    convert ht using 1
    by_cases hj : j = c.e
    · subst hj
      simp only [if_true, hs', hd, ne_eq, not_true_eq_false, not_false_eq_true, and_true, and_false,
        if_false]
      omega
    · simp only [hj, if_false, false_and, Nat.sub_zero]
  · rw [(hent j).1]
    by_cases hc : j = c.e ∧ s.iput = .last
    · -- who still has a reference has allocated the inode again
      obtain ⟨rfl, hlast⟩ := hc
      have hbase := (h.iput.frees (by rw [hlast]; trivial)).1
      have hn : (((s.ip c.e).ref : ℤ) - c.base c.e - if c.e = c.e ∧ s.iput ≠ .done then 1 else 0) ≠ 0 := by
        rw [(hent c.e).2.2.2, if_pos rfl] at hj
        rw [if_pos ⟨rfl, hd⟩, hbase]
        omega
      obtain ⟨p, hp⟩ := (h.refs c.e).exists_ne hn
      have hp' : (s.proc p).refs.count c.e ≠ 0 := fun h0 => hp (by rw [h0]; rfl)
      exact h.type_of_refs (List.count_pos_iff.1 (Nat.pos_of_ne_zero hp'))
    · exact h.type (hpos' hj) hc
  · have hfr' : ¬ s.Freeing c j := by
      rintro ⟨rfl, hf⟩
      rcases hl with hl | ⟨q, hq⟩
      · rw [hself, hv' hf] at hl
        cases hl
      · exact h.not_freeing_of_loaded hq ⟨rfl, hf⟩
    have hl' : s.Loaded j := by
      refine hl.imp_left fun hl => ?_
      by_cases hj : j = c.e
      · subst hj
        rw [hself, hv fun hf => hfr' ⟨rfl, hf⟩] at hl
        exact hl
      · rwa [hne hj] at hl
    have := h.synced (hpos' hj) hl' hfr'
    rw [Synced, (hent j).1, (hent j).2.2.1]
    exact this
  · refine (h.proc q).other rfl (fun {j} _ => ⟨(hent j).1, rfl⟩) (fun {j} hj hvj => ?_)
      fun _ _ _ => ⟨rfl, fun he => he.elim⟩
    by_cases hje : j = c.e
    · subst hje
      rw [hself, hv fun hf => h.not_freeing_of_valids hj ⟨rfl, hf⟩]
      exact hvj
    · rwa [hne hje]
  · exact ⟨fun hf => hf.elim, fun hf => hf.elim, (by rintro (ht | ht) <;> cases ht), by rintro ⟨⟩⟩

end

/-! ## The invariant holds in safe runs -/

section
variable {p : ℕ} {s' : CrState}

/-- No process tests `I_VALID` of the entry that is freed between the last `iupdate` of `iput` and
    its last section. -/
def Clear (c : Creates) (s : CrState) (who : Option ℕ) : Prop :=
  ∀ p r, who = some p → s.proc p = .ilock r c.e .test → s.iput ≠ .last

variable {x : CrStep} {pc pc₀ : CreatePc} {i : Fin NINODE}

theorem CrInv.iputNext (h : s.CrInv c) (hs : s.iputNext c x = some s') :
    s'.CrInv c := by
  have hlt : s.iput.Frees → (s.ip c.e).inum < s.fs.sb.ninodes := fun hf =>
    (h.entry (h.ref_e hf.ne_done)).2
  have hdi : s.iput.Frees → ∀ di, ∀ n < s.fs.sb.ninodes,
      dinodeAt s.fs.sb (setDinode s.fs.sb s.fs.disk (s.ip c.e).inum di) n =
        if n = (s.ip c.e).inum then di else s.dinode n := fun hf di n hn => by
    rw [dinodeAt_setDinode h.ok (hlt hf) hn]
    rfl
  -- `iupdate` writes an inode without links
  have hup : s.iput.Frees → s.iput.Early → ∀ di, di.nlink = (s.ip c.e).di.nlink →
      (dinodeAt s.fs.sb (setDinode s.fs.sb s.fs.disk (s.ip c.e).inum di) (s.ip c.e).inum).nlink = 0 :=
    fun hf he di hn => by
      rw [hdi hf _ _ (hlt hf), if_pos rfl, hn]
      exact (h.iput.early hf he).1
  have htype : s.iput.Frees → s.iput ≠ .last → (s.dinode (s.ip c.e).inum).type ≠ 0 := fun hf hl =>
    h.type (h.ref_e hf.ne_done) fun hc => hl hc.2
  cases x with
  | go =>
    simp only [CrState.iputNext] at hs
    cases hp : s.iput with
    | test =>
      simp only [hp] at hs
      split_ifs at hs with hc
      · cases hs
        exact h.begin hp hc.1 hc.2.1 hc.2.2
      · cases hs
        exact h.finish (by rw [hp]; rintro ⟨⟩) (fun _ => rfl) fun hf => by rw [hp] at hf; cases hf
    | trunc =>
      simp only [hp] at hs
      cases hs
      have hf : s.iput.Frees := by rw [hp]; trivial
      have he : s.iput.Early := by rw [hp]; trivial
      refine h.free hf he trivial rfl rfl rfl (fun n hn hne => ?_) (hup hf he _ rfl) (fun _ => ?_)
        (fun _ => (h.iput.early hf he).1) fun _ => h.iput.trunc (.inl hp)
      · rw [iupdate, hdi hf _ n hn, if_neg hne]
      · rw [iupdate, hdi hf _ _ (hlt hf), if_pos rfl]
        exact h.iput.trunc (.inl hp)
    | clear =>
      simp only [hp] at hs
      cases hs
      have hf : s.iput.Frees := by rw [hp]; trivial
      have he : s.iput.Early := by rw [hp]; trivial
      exact h.free hf he trivial rfl rfl rfl (fun n hn hne => rfl) (h.iput.frees hf).2
        (fun _ => htype hf (by rw [hp]; rintro ⟨⟩)) (fun _ => (h.iput.early hf he).1)
        fun ht => by rcases ht with ht | ht <;> cases ht
    | update =>
      simp only [hp] at hs
      cases hs
      have hf : s.iput.Frees := by rw [hp]; trivial
      have he : s.iput.Early := by rw [hp]; trivial
      refine h.free hf he trivial rfl rfl rfl (fun n hn hne => ?_) (hup hf he _ rfl)
        (fun hl => absurd rfl hl) (fun hc => hc.elim) fun ht => by rcases ht with ht | ht <;> cases ht
      rw [iupdate, hdi hf _ n hn, if_neg hne]
    | last =>
      simp only [hp] at hs
      cases hs
      exact h.finish (by rw [hp]; rintro ⟨⟩) (fun hf => absurd trivial (by rwa [hp] at hf)) fun _ => rfl
    | done =>
      simp only [hp] at hs
      cases hs
  | data b v size addrs =>
    simp only [CrState.iputNext] at hs
    split_ifs at hs with hc
    cases hs
    obtain ⟨hp, hb⟩ := hc
    have hf : s.iput.Frees := by rw [hp]; trivial
    have he : s.iput.Early := by rw [hp]; trivial
    have hdata : ∀ n < s.fs.sb.ninodes,
        dinodeAt s.fs.sb (update s.fs.disk b v) n = s.dinode n :=
      fun n hn => by rw [dinodeAt, update_of_ne (hb n hn)]; rfl
    refine h.free hf he hf rfl rfl rfl (fun n hn _ => hdata n hn) ?_ (fun _ => ?_)
      (fun _ => (h.iput.early hf he).1) fun ht => h.iput.trunc ht
    · rw [hdata _ (hlt hf)]
      exact (h.iput.frees hf).2
    · rw [hdata _ (hlt hf)]
      exact htype hf (by rw [hp]; rintro ⟨⟩)
  | walk _ | cwd _ | found _ | skip => cases hs

theorem CrInv.panic (h : s.CrInv c) {e : FsPanic} (h1 : e ≠ .noType) (h2 : e ≠ .notDir) :
    { s with panicked := some e }.CrInv c :=
  { h with
    proc := fun p => (h.proc p).other rfl (fun _ => ⟨rfl, rfl⟩) (fun _ => id) fun _ _ _ =>
      ⟨rfl, fun he => ⟨he, rfl⟩⟩
    iput := ⟨h.iput.frees, h.iput.early, h.iput.trunc, h.iput.last⟩
    panicked := ⟨fun heq => h1 (Option.some.inj heq), fun heq => h2 (Option.some.inj heq)⟩ }

theorem CrInv.holder (h : s.CrInv c) (f : Fin NINODE → Option ℕ) : { s with holder := f }.CrInv c :=
  { h with
    proc := fun p => (h.proc p).other rfl (fun _ => ⟨rfl, rfl⟩) (fun _ => id) fun _ _ _ =>
      ⟨rfl, fun he => ⟨he, rfl⟩⟩
    iput := ⟨h.iput.frees, h.iput.early, h.iput.trunc, h.iput.last⟩ }

/-- A process that is not waiting for the entry that is freed goes on. -/
theorem CrInv.proceed (h : s.CrInv c) (hat : s.proc p = pc₀) (hf : Follows c p pc₀ pc)
    (hvalid : ∀ {j}, j ∈ pc.valids → j ∈ pc₀.valids) (hdirty : pc₀.dirty = none)
    (hloaded : pc.loaded = none) (hw : ¬ pc₀.Waiting c.e) : (s.goto p pc s.fs).CrInv c :=
  h.move hat hf (fun hj => .inl (hvalid hj)) (fun hj => by rw [hdirty] at hj; cases hj) hloaded
    fun hl he => absurd (h.iput.last hl p (hat ▸ hf.mem_refs he)) (hat ▸ hw)

/-- A store to the in-memory inode of an entry that the process has locked. -/
theorem CrInv.store (h : s.CrInv c) (hat : s.proc p = pc₀) {di : Dinode} {d : Disk} (hi : i ∈ pc₀.valids)
    (ht : di.type = (s.ip i).di.type)
    (hdi : ∀ n < s.fs.sb.ninodes, dinodeAt s.fs.sb d n = s.dinode n)
    (hdirty : pc.dirty = some i ∨ di.nlink = (s.ip i).di.nlink ∧ pc₀.dirty = none)
    (hf : Follows c p pc₀ pc) (hvalid : ∀ {j}, j ∈ pc.valids → j ∈ pc₀.valids)
    (hd : ∀ {j}, j ≠ i → pc₀.dirty ≠ some j) (hloaded : pc.loaded = none)
    (hw : ¬ pc₀.Waiting c.e) :
    (s.goto p pc (s.fs.put i { s.ip i with di := di } d)).CrInv c := by
  subst hat
  have hv := (h.proc p).valid hi
  have hmem := CreatePc.mem_refs_of_valids hi
  have hpos := h.ref_pos hmem
  have hfr := h.not_freeing_of_valids hi
  have hs := h.synced hpos (.inl hv) hfr
  have hlt := (h.entry hpos).2
  refine h.touch rfl hmem hfr rfl rfl rfl id (fun n hn => by rw [hdi n hn]) (fun n hn _ => by rw [hdi n hn])
    (fun _ => ⟨ht.trans hs.1, fun hno => ?_⟩) hf (fun hj => .inl (hvalid hj))
    (fun hji hj => absurd hj (hd hji)) (fun _ => by rw [hloaded]; rintro ⟨⟩) hw
  rcases hdirty with hdirty | ⟨hn, hnone⟩
  · exact absurd hdirty (by have := hno p; rwa [goto_self] at this)
  · rw [hdi _ hlt]
    exact hn.trans (hs.2 (clean_of_goto hno (by rw [hnone]; rintro ⟨⟩)))

/-- `iupdate` of an entry that the process has locked. -/
theorem CrInv.update (h : s.CrInv c) (hat : s.proc p = pc₀) (hi : i ∈ pc₀.valids) (hf : Follows c p pc₀ pc)
    (hvalid : ∀ {j}, j ∈ pc.valids → j ∈ pc₀.valids)
    (hd : ∀ {j}, j ≠ i → pc₀.dirty ≠ some j) (hloaded : pc.loaded = none)
    (hw : ¬ pc₀.Waiting c.e) : (s.goto p pc (s.updateIp i (s.ip i))).CrInv c := by
  subst hat
  have hmem := CreatePc.mem_refs_of_valids hi
  have hlt := (h.entry (h.ref_pos hmem)).2
  have ht := h.type_of_valids hi
  have hdi : ∀ n < s.fs.sb.ninodes, dinodeAt s.fs.sb (iupdate s.fs.sb s.fs.disk (s.ip i)) n =
      if n = (s.ip i).inum then (s.ip i).di else s.dinode n := fun n hn => by
    rw [iupdate, dinodeAt_setDinode h.ok hlt hn]
    rfl
  refine h.touch rfl hmem (h.not_freeing_of_valids hi) rfl rfl rfl id (fun n hn => ?_) (fun n hn hne => ?_)
    (fun _ => ⟨ht, fun _ => ?_⟩) hf (fun hj => .inl (hvalid hj))
    (fun hji hj => absurd hj (hd hji)) (fun _ => by rw [hloaded]; rintro ⟨⟩) hw
  · rw [hdi n hn]
    split_ifs with hni
    · rw [hni, ht]
    · rfl
  · rw [hdi n hn, if_neg hne]
  · rw [hdi _ hlt, if_pos rfl]

/-- `ilock` keeps the inodes of the process. -/
theorem follows_ilock (r : Role) (i : Fin NINODE) (l l' : IlockPc) :
    Follows c p (.ilock r i l) (.ilock r i l') := ⟨fun _ => rfl, id, id, rfl, by rintro ⟨⟩⟩

theorem follows_afterIlock (r : Role) (i : Fin NINODE) (l : IlockPc) :
    Follows c p (.ilock r i l) (afterIlock r i) := by
  cases r <;> exact ⟨fun _ => rfl, id, id, rfl, by rintro ⟨⟩⟩

theorem mem_valids_afterIlock {r : Role} {i j : Fin NINODE} (hj : j ∈ (afterIlock r i).valids) :
    j ∈ r.refs ∨ j = i := by
  cases r with
  | parent | existing => exact .inr (List.mem_singleton.1 hj)
  | fresh dp =>
    rcases List.mem_cons.1 hj with rfl | hj
    · exact .inr rfl
    · exact .inl hj

theorem loaded_afterIlock (r : Role) (i : Fin NINODE) : (afterIlock r i).loaded = none := by
  cases r <;> rfl

theorem CrInv.ilockNext (h : s.CrInv c) {r : Role} {l : IlockPc} (hpc : s.proc p = .ilock r i l)
    (hclear : s.Clear c (some p)) (hs : s.ilockNext p r i l = some s') :
    s'.CrInv c := by
  -- a process that has read the inode does not wait for the entry
  have hread : ∀ {j}, l = .load ∨ l = .set → ¬ (CreatePc.ilock r i l).Waiting j := by
    rintro j (rfl | rfl) hw <;> cases r with
    | fresh dp => rcases hw.2.2 with hw | hw <;> cases hw
    | _ => exact hw
  have hlast : s.iput = .last → c.e ∈ (CreatePc.ilock r i l).refs →
      (CreatePc.ilock r i l).Waiting c.e := fun hl he => hpc ▸ h.iput.last hl p (hpc ▸ he)
  -- and none tests the entry that is freed
  have htest : l = .test → s.iput = .last → c.e ∉ (CreatePc.ilock r i l).refs := by
    rintro rfl hl he
    have hw := hlast hl he
    cases r with
    | fresh dp =>
      obtain ⟨rfl, -⟩ := hw
      exact hclear p _ rfl hpc hl
    | _ => exact hw
  have hmem : i ∈ (s.proc p).refs := by rw [hpc]; exact List.mem_cons_self
  cases l with
  | acquire =>
    simp only [CrState.ilockNext] at hs
    split_ifs at hs with href hfree
    · cases hs
      exact h.panic (by rintro ⟨⟩) (by rintro ⟨⟩)
    · cases hs
      refine CrInv.holder (s := s.goto p (.ilock r i .test) s.fs) (h.move hpc (follows_ilock r i _ _)
        .inl (by rintro _ ⟨⟩) rfl fun hl he => ?_) _
      have hw := hlast hl he
      cases r with
      | fresh dp => exact ⟨hw.1, hw.2.1, .inr rfl⟩
      | _ => exact hw
  | test =>
    simp only [CrState.ilockNext] at hs
    cases hs
    split_ifs with hv
    · exact h.move hpc (follows_afterIlock r i _)
        (fun hj => (mem_valids_afterIlock hj).imp_right (by rintro rfl; exact hv)) (by rintro _ ⟨⟩)
        (loaded_afterIlock r i) fun hl he =>
          absurd ((follows_afterIlock (c := c) (p := p) r i .test).mem_refs he) (htest rfl hl)
    · exact h.move hpc (follows_ilock r i _ _) .inl (by rintro _ ⟨⟩) rfl
        fun hl he => absurd he (htest rfl hl)
  | load =>
    simp only [CrState.ilockNext] at hs
    cases hs
    exact h.touch hpc List.mem_cons_self (h.not_freeing hmem (hpc ▸ hread (.inl rfl))) rfl rfl rfl id
      (fun _ _ => rfl) (fun _ _ _ => rfl) (fun _ => ⟨rfl, fun _ => rfl⟩) (follows_ilock r i _ _) .inl
      (by rintro _ _ ⟨⟩) (fun hji hj => hji (Option.some.inj hj).symm) (hread (.inl rfl))
  | set =>
    have hl : (s.proc p).loaded = some i := by rw [hpc]; rfl
    have hfr := h.not_freeing_of_loaded hl
    have hsync := h.synced (h.ref_pos hmem) (.inr ⟨p, hl⟩) hfr
    have ht : (s.ip i).di.type ≠ 0 := by
      rw [hsync.1]
      exact h.type_of_refs hmem
    simp only [CrState.ilockNext, if_neg ht] at hs
    cases hs
    exact h.touch hpc List.mem_cons_self hfr rfl rfl rfl (fun _ => rfl) (fun _ _ => rfl)
      (fun _ _ _ => rfl)
      (fun _ => ⟨hsync.1, fun hno => hsync.2 (clean_of_goto hno (by rw [hpc]; rintro ⟨⟩))⟩)
      (follows_afterIlock r i _) (fun hj => (mem_valids_afterIlock hj).imp_right fun hj => ⟨hj, rfl⟩)
      (by rintro _ _ ⟨⟩) (fun _ => by rw [loaded_afterIlock]; rintro ⟨⟩) (hread (.inr rfl))

/-- `iget`, for a process that goes on with the entry. -/
theorem CrInv.igetNext (h : s.CrInv c) (hat : s.proc p = pc₀) {n : ℕ} {k : Fin NINODE → CreatePc}
    (hn : n < s.fs.sb.ninodes) (ht : (s.dinode n).type ≠ 0)
    (hearly : s.iput.Frees → s.iput.Early → n ≠ (s.ip c.e).inum)
    (hrefs : ∀ i j, (k i).refs.count j = pc₀.refs.count j + if j = i then 1 else 0)
    (hpc : ∀ {i} {t : CrState}, (t.ip i).inum = n → t.dinode n = s.dinode n →
      t.PcOk c p pc₀ → t.PcOk c p (k i))
    (hdirty : pc₀.dirty = none) (hloaded : ∀ i, (k i).loaded = none)
    (hwait : ∀ i, s.iput = .last → c.e ∈ (k i).refs → (i = c.e → n = (s.ip c.e).inum) →
      (k i).Waiting c.e) : (s.igetNext p n k).CrInv c := by
  subst hat
  unfold CrState.igetNext
  split
  · rename_i i ic hget
    rcases Consistent.iget_cases hget with ⟨hr, hinum, rfl⟩ | ⟨hr, hno, rfl⟩
    · have hent := h.entry hr
      change (s.goto p (k i) (s.setIp i { s.ip i with ref := (s.ip i).ref + 1 })).CrInv c
      refine h.take rfl hent.1 hent.2 rfl (.inl ⟨hr, rfl⟩) (fun _ => hinum ▸ ht)
        (fun hf he hie => hearly hf he ?_) (hrefs i) (fun hok => hpc ?_ rfl hok) hdirty (hloaded i)
        fun hl he => hwait i hl he fun hie => ?_
      · rw [← hinum, hie]
        rfl
      · rw [goto_ip, setIp, Fs.put_self, ← hinum]
        rfl
      · rw [← hinum, hie]
        rfl
    · change (s.goto p (k i) (s.setIp i ⟨ROOTDEV, n, 1, false, (s.ip i).di⟩)).CrInv c
      refine h.take rfl rfl hn
        (by rw [show (s.ip i).ref = 0 from hr]) (.inr ⟨hr, rfl, fun j hj => hno j hj (h.entry hj).1⟩)
        (fun _ => ht) (fun hf _ hie => ?_) (hrefs i) (fun hok => hpc ?_ rfl hok) hdirty (hloaded i)
        fun hl he => hwait i hl he fun hie => ?_
      · have := h.ref_e hf.ne_done
        rw [← hie] at this
        exact absurd hr this.ne'
      · rw [goto_ip, setIp, Fs.put_self]
      · have := h.ref_e (by rw [hl]; rintro ⟨⟩)
        rw [← hie] at this
        exact absurd hr this.ne'
  · rename_i e hget
    have he : e = .iget := by
      unfold Xv6.iget at hget
      split at hget
      · cases hget
      · split at hget <;> cases hget
        rfl
    subst he
    exact h.panic (by rintro ⟨⟩) (by rintro ⟨⟩)

theorem count_cons_eq (i j : Fin NINODE) (l : List (Fin NINODE)) :
    (i :: l).count j = l.count j + if j = i then 1 else 0 := by
  rw [List.count_cons]
  by_cases hji : j = i
  · rw [if_pos hji, if_pos (by rw [hji]; exact beq_self_eq_true i)]
  · rw [if_neg hji, if_neg (by rw [beq_iff_eq]; exact fun h => hji h.symm)]

theorem mem_linkDir (dp ip : Fin NINODE) (k : Link) : linkDir dp ip k ∈ [ip, dp] := by
  cases k <;> simp [linkDir]

/-- `create` goes on after `dirlink` with the same inodes. -/
theorem follows_afterLink (dp ip : Fin NINODE) (k : Link) :
    Follows c p (.writei dp ip k) (afterLink dp ip k) := by
  cases k with
  | dot => exact ⟨fun _ => rfl, id, id, rfl, fun _ => .inl (by rintro ⟨⟩)⟩
  | dotdot => exact ⟨fun _ => rfl, id, id, rfl, fun hd => absurd rfl hd⟩
  | name => exact ⟨fun j => by simp only [afterLink, CreatePc.refs, Then.refs, count_cons_eq]; omega,
      (by rintro _ ⟨⟩), id, rfl, by rintro ⟨⟩⟩

theorem valids_afterLink {dp ip j : Fin NINODE} {k : Link} (hj : j ∈ (afterLink dp ip k).valids) :
    j ∈ [ip, dp] := by
  cases k with
  | dot | dotdot => exact hj
  | name => exact List.mem_cons.2 (.inl (List.mem_singleton.1 hj))

theorem loaded_afterLink (dp ip : Fin NINODE) (k : Link) : (afterLink dp ip k).loaded = none := by
  cases k <;> rfl

/-- The directory that `create` searches. -/
theorem CrInv.lookup_dir (h : s.CrInv c) {dp : Fin NINODE} (hpc : s.proc p = .lookup dp) :
    (s.ip dp).di.type = T_DIR := by
  have hok := h.proc p
  rw [hpc] at hok
  rw [h.type_of_valids (p := p) (by rw [hpc]; exact List.mem_singleton_self _)]
  exact hok.dir rfl

/-- The inodes of a process that does not wait are not in the entry that is freed. -/
theorem CrInv.refs_ne (h : s.CrInv c) (hpc : s.proc p = pc) (hw : ¬ pc.Waiting c.e)
    (hi : i ∈ pc.refs) (hl : s.iput = .last) : i ≠ c.e := by
  rintro rfl
  subst hpc
  exact hw (h.iput.last hl p hi)

/-- An inode that is being freed has no links. -/
theorem CrInv.linked_ne (h : s.CrInv c) {n : ℕ} (hl : (s.dinode n).nlink ≠ 0) (hf : s.iput.Frees) :
    n ≠ (s.ip c.e).inum := fun heq => hl (heq ▸ (h.iput.frees hf).2)

theorem CrInv.createGo (h : s.CrInv c) (hclear : s.Clear c (some p))
    (hs : s.createGo c p (s.proc p) = some s') : s'.CrInv c := by
  have hok := h.proc p
  generalize hpc : s.proc p = pc at hs hok
  cases pc with
  | start | opened _ | failed => cases hs
  | ilock r i l => exact h.ilockNext hpc hclear hs
  | lookup dp =>
    rw [CrState.createGo, if_neg fun hne => hne (h.lookup_dir hpc)] at hs
    cases hs
    exact h.proceed hpc ⟨fun _ => rfl, id, id, rfl, by rintro ⟨⟩⟩ id rfl rfl id
  | ialloc dp n =>
    rw [CrState.createGo] at hs
    split_ifs at hs with hn h0
    · cases hs
      exact h.mark hpc hn h0
    · cases hs
      exact h.proceed hpc ⟨fun _ => rfl, id, id, rfl, by rintro ⟨⟩⟩ id rfl rfl id
    · cases hs
      exact h.panic (by rintro ⟨⟩) (by rintro ⟨⟩)
  | iget dp n =>
    cases hs
    obtain ⟨hn, ht, hne⟩ := hok.marked rfl
    refine h.igetNext hpc hn (by rw [ht]; exact c.args_type p) (fun _ he => hne he)
      (fun i j => count_cons_eq i j [dp]) (fun {i t} hi hdi hq => ?_) rfl (fun _ => rfl)
      fun i hl he hie => ?_
    · refine ⟨hq.dir, fun hj => ?_, hq.valid, by rintro _ ⟨⟩, by rintro ⟨⟩⟩
      cases hj
      rw [hi, hdi]
      exact ht
    · have hdp := h.refs_ne hpc id (List.mem_singleton_self dp) hl
      rcases List.mem_cons.1 he with he | he
      · exact ⟨he.symm, hdp, .inl rfl⟩
      · exact absurd (List.mem_singleton.1 he).symm hdp
  | fields dp ip =>
    cases hs
    exact h.store hpc List.mem_cons_self rfl (fun _ _ => rfl) (.inl rfl)
      ⟨fun _ => rfl, id, id, rfl, by rintro ⟨⟩⟩ id (fun _ => by rintro ⟨⟩) rfl id
  | update dp ip =>
    cases hs
    have hd : ∀ {j}, j ≠ ip → (CreatePc.update dp ip).dirty ≠ some j := fun hj heq =>
      hj (Option.some.inj heq).symm
    split_ifs with ht
    · exact h.update hpc List.mem_cons_self ⟨fun _ => rfl, id, id, rfl, fun _ => .inr ht⟩ id hd rfl id
    · exact h.update hpc List.mem_cons_self ⟨fun _ => rfl, id, id, rfl, fun hd => absurd rfl hd⟩
        id hd rfl id
  | nlink dp ip =>
    cases hs
    exact h.store hpc (List.mem_cons_of_mem _ (List.mem_singleton_self _)) rfl (fun _ _ => rfl)
      (.inl rfl) ⟨fun _ => rfl, id, id, rfl, .inl⟩ id (fun _ => by rintro ⟨⟩) rfl id
  | dpUpdate dp ip =>
    cases hs
    exact h.update hpc (List.mem_cons_of_mem _ (List.mem_singleton_self _))
      ⟨fun _ => rfl, id, id, rfl, fun _ => .inl trivial⟩ id
      (fun hj heq => hj (Option.some.inj heq).symm) rfl id
  | dirlookup dp ip k =>
    have ht : (s.ip (linkDir dp ip k)).di.type = T_DIR := by
      rw [h.type_of_valids (p := p) (by rw [hpc]; exact mem_linkDir dp ip k)]
      cases k with
      | name => exact hok.dir rfl
      | dot | dotdot => exact (hok.newIp rfl).trans (hok.dots (by rintro ⟨⟩))
    rw [CrState.createGo, if_neg fun hne => hne ht] at hs
    cases hs
    exact h.proceed hpc ⟨fun _ => rfl, id, id, rfl, .inl⟩ id rfl rfl id
  | writei dp ip k =>
    cases hs
    exact h.update hpc (mem_linkDir dp ip k) (follows_afterLink dp ip k) valids_afterLink
      (fun _ => by rintro ⟨⟩) (loaded_afterLink dp ip k) id
  | iunlock i k =>
    cases hs
    exact CrInv.holder (s := s.goto p (.iput i k) s.fs)
      (h.proceed hpc ⟨fun _ => rfl, by rintro _ ⟨⟩, id, rfl, by rintro ⟨⟩⟩ id rfl rfl id) _
  | iput i k =>
    rw [CrState.createGo] at hs
    split_ifs at hs with hc
    cases hs
    refine h.drop hpc List.mem_cons_self (fun j => ?_) ?_ rfl ?_ id
    · cases k <;> simp only [afterPut, CreatePc.refs, Role.refs, Then.refs, count_cons_eq] <;> omega
    · cases k with
      | ret ip => exact ⟨by rintro _ ⟨⟩, hok.newIp, hok.valid, by rintro _ ⟨⟩, by rintro ⟨⟩⟩
      | existing ip | fail => exact .nothing rfl rfl rfl rfl id
    · cases k <;> rfl
  | check ip =>
    rw [CrState.createGo] at hs
    split_ifs at hs <;> cases hs <;>
      exact h.proceed hpc ⟨fun _ => rfl, by rintro _ ⟨⟩, by rintro _ ⟨⟩, rfl, by rintro ⟨⟩⟩
        (by rintro _ ⟨⟩) rfl rfl id
  | ret ip | old ip =>
    cases hs
    exact CrInv.holder (s := s.goto p (.opened ip) s.fs)
      (h.proceed hpc ⟨fun _ => rfl, by rintro _ ⟨⟩, by rintro _ ⟨⟩, rfl, by rintro ⟨⟩⟩
        (by rintro _ ⟨⟩) rfl rfl id) _

theorem CrInv.createNext (h : s.CrInv c) (hclear : s.Clear c (some p))
    (hs : s.createNext c p x = some s') : s'.CrInv c := by
  cases x with
  | go => exact h.createGo hclear hs
  | walk n =>
    simp only [CrState.createNext] at hs
    split_ifs at hs with hc
    cases hs
    obtain ⟨hpc, hn, ht, hl⟩ := hc
    refine h.igetNext hpc hn (by rw [ht]; decide) (fun hf _ => h.linked_ne hl hf)
      (fun i j => count_cons_eq i j []) (fun {i t} hi hdi _ => ?_) rfl (fun _ => rfl)
      fun i hlast he hie => ?_
    · refine ⟨fun hj => ?_, by rintro _ ⟨⟩, by rintro _ ⟨⟩, by rintro _ ⟨⟩, by rintro ⟨⟩⟩
      cases hj
      rw [hi, hdi]
      exact ht
    · exact absurd (hie (List.mem_singleton.1 he).symm) (h.linked_ne hl (by rw [hlast]; trivial))
  | cwd i =>
    simp only [CrState.createNext] at hs
    split_ifs at hs with hc
    cases hs
    obtain ⟨hpc, hb, ht⟩ := hc
    have hpos := h.ref_base hb
    have hie : s.iput.Frees → i ≠ c.e := fun hf hie => by
      rw [hie, (h.iput.frees hf).1] at hb
      exact absurd hb (lt_irrefl 0)
    change (s.goto p _ (s.setIp i { s.ip i with ref := (s.ip i).ref + 1 })).CrInv c
    refine h.take hpc (h.entry hpos).1 (h.entry hpos).2 rfl (.inl ⟨hpos, rfl⟩)
      (fun _ => by rw [ht]; decide) (fun hf _ => hie hf) (fun j => count_cons_eq i j []) (fun _ => ?_)
      rfl rfl fun hlast he => ?_
    · refine ⟨fun hj => ?_, by rintro _ ⟨⟩, by rintro _ ⟨⟩, by rintro _ ⟨⟩, by rintro ⟨⟩⟩
      cases hj
      rw [goto_ip, setIp, Fs.put_self]
      exact ht
    · exact absurd (List.mem_singleton.1 he).symm (hie (by rw [hlast]; trivial))
  | found n =>
    simp only [CrState.createNext] at hs
    split at hs
    · rename_i dp hpc
      rw [if_neg fun hne => hne (h.lookup_dir hpc)] at hs
      split_ifs at hs with hc
      cases hs
      obtain ⟨hn, hl⟩ := hc
      refine h.igetNext hpc hn (h.linked hn hl) (fun hf _ => h.linked_ne hl hf) (fun i j => ?_)
        (fun _ _ _ => .nothing rfl rfl rfl rfl id) rfl (fun _ => rfl) fun i hlast he hie => ?_
      · simp only [CreatePc.refs, Then.refs, count_cons_eq]
        omega
      · rcases List.mem_cons.1 he with he | he
        · exact absurd he.symm (h.refs_ne hpc id (List.mem_singleton_self dp) hlast)
        · exact absurd (hie (List.mem_singleton.1 he).symm) (h.linked_ne hl (by rw [hlast]; trivial))
    · cases hs
  | data b v size addrs =>
    simp only [CrState.createNext] at hs
    split at hs
    · rename_i dp ip k hpc
      split_ifs at hs with hb
      cases hs
      exact h.store hpc (mem_linkDir dp ip k) rfl
        (fun n hn => by rw [dinodeAt, update_of_ne (hb n hn)]; rfl)
        (.inr ⟨rfl, rfl⟩) ⟨fun _ => rfl, id, id, rfl, .inl⟩ id (fun _ => by rintro ⟨⟩) rfl id
    · cases hs
  | skip =>
    simp only [CrState.createNext] at hs
    split at hs
    · rename_i dp ip k hpc
      cases hs
      exact h.proceed hpc (follows_afterLink dp ip k) valids_afterLink rfl (loaded_afterLink dp ip k) id
    · cases hs

theorem CrInv.next (h : s.CrInv c) {who : Option ℕ} (hclear : s.Clear c who)
    (hs : s.next c who x = some s') : s'.CrInv c := by
  unfold CrState.next at hs
  split_ifs at hs
  cases who with
  | none => exact h.iputNext hs
  | some p => exact h.createNext hclear hs

theorem CrInv.of_runs (h : CrRuns c (Clear c) s) : s.CrInv c :=
  h.inv (fun _ => .init) fun _ _ _ hi hs => hi.next hs.1 hs.2

end

/-! ## A run in which `create` returns a half-freed inode -/

/-- Inodes 0, 1 and 2 in block 2; the bit map in block 3. -/
def raceSb : Superblock := ⟨16, 12, 3, 0, 2, 2, 3⟩

/-- Inode 1 is the root directory; inode 2 is a file without links. -/
def raceDisk : Disk :=
  setDinode raceSb (setDinode raceSb (fun _ _ => 0) 1 { Dinode.zero with type := T_DIR, nlink := 1 }) 2
    { Dinode.zero with type := T_FILE }

/-- Entry 0 is the file, entry 1 the root directory. -/
def raceStart : CrState where
  fs := ⟨raceSb, raceDisk, fun i =>
    if i = 0 then ⟨ROOTDEV, 2, 1, true, dinodeAt raceSb raceDisk 2⟩
    else if i = 1 then ⟨ROOTDEV, 1, 1, true, dinodeAt raceSb raceDisk 1⟩
    else ⟨0, 0, 0, false, .zero⟩⟩
  holder := fun _ => none
  iput := .test
  proc := fun _ => .start
  panicked := none

/-- All processes create something of type `t`; the root directory is the current directory. -/
def race (t : Int16) (h : t ≠ 0) : Creates where
  e := 0
  base := fun i => if i = 1 then 1 else 0
  args := fun _ => ⟨t, 0, 0⟩
  args_type := fun _ => h

theorem raceStart_init (t : Int16) (h : t ≠ 0) : CrInit (race t h) raceStart where
  ok := ⟨by decide, by decide, by decide, by decide⟩
  iput := rfl
  proc _ := rfl
  panicked := rfl
  ref := by
    change ∀ i, (raceStart.ip i).ref = (if i = 1 then 1 else 0) + if i = 0 then 1 else 0
    decide
  dev := by decide
  inum := by decide
  type := by decide +kernel
  once := by decide
  valid i hr _ := by
    by_cases h0 : i = 0
    · subst h0
      rfl
    · by_cases h1 : i = 1
      · subst h1
        rfl
      · exact absurd hr (by simp [ip, raceStart, h0, h1])
  linked := by decide +kernel

/-- The `iput` of the file up to its last section under `icache.lock`. -/
def freeing : List (Option ℕ × CrStep) := List.replicate 4 (none, .go)

/-- `create` by process `p` in the current directory, `n` steps of it. -/
def creating (p n : ℕ) : List (Option ℕ × CrStep) := (some p, .cwd 1) :: List.replicate n (some p, .go)

/-- A run of the race, executed; `b` checks the condition on the steps. -/
def raceRun {C : CrState → Option ℕ → Prop} {t : Int16} {h : t ≠ 0} {P : CrState → Bool}
    (b : CrState → Option ℕ → Bool) (hb : ∀ s who, b s who = true → C s who)
    (xs : List (Option ℕ × CrStep))
    (hr : (run (fun s x => if b s x.1 then s.next (race t h) x.1 x.2 else none) raceStart xs).any P =
      true) : Reached (CrRuns (race t h) C) P :=
  Reached.ofRun _ (fun s x s' hs => by split_ifs at hs with hc; exact ⟨hb s x.1 hc, hs⟩)
    (raceStart_init t h) xs hr

/-- `create` returns the inode with type 0. -/
def halfFreedEnd : Reached (CrRuns (race T_FILE (by decide)) (fun _ _ => True)) fun s =>
    s.proc 0 = .ret 0 ∧ (s.ip 0).di.type = 0 ∧ (s.dinode (s.ip 0).inum).type = 0 :=
  raceRun (fun _ _ => true) (fun _ _ _ => trivial) (freeing ++ creating 0 14) (by decide +kernel)

/-- A directory makes `create` panic. -/
def notDirEnd : Reached (CrRuns (race T_DIR (by decide)) (fun _ _ => True)) fun s => s.panicked = some .notDir :=
  raceRun (fun _ _ => true) (fun _ _ _ => trivial) (freeing ++ creating 0 13) (by decide +kernel)

/-- Process 1 looks the new name up. -/
def noTypeEnd : Reached (CrRuns (race T_FILE (by decide)) (fun _ _ => True)) fun s => s.panicked = some .noType :=
  raceRun (fun _ _ => true) (fun _ _ _ => trivial)
    (freeing ++ creating 0 14 ++ [(none, .go), (some 0, .go)] ++ creating 1 2 ++
      [(some 1, .found 2)] ++ List.replicate 6 (some 1, .go)) (by decide +kernel)

/-- **`create` returns an inode that is being freed.**  Inode 2 is free on disk before `iput`
    clears `I_VALID`.  `ialloc` takes it, `iget` finds the old entry, and `ilock` believes it.
    `create` then writes type 0 to disk and returns the inode; a directory makes it panic; and
    who looks the name up later panics. -/
theorem create_half_freed :
    (∃ s, CrRuns (race T_FILE (by decide)) (fun _ _ => True) s ∧ s.proc 0 = .ret 0 ∧
      (s.ip 0).di.type = 0 ∧ (s.dinode (s.ip 0).inum).type = 0) ∧
    (∃ s, CrRuns (race T_DIR (by decide)) (fun _ _ => True) s ∧ s.panicked = some .notDir) ∧
    ∃ s, CrRuns (race T_FILE (by decide)) (fun _ _ => True) s ∧ s.panicked = some .noType := by
  refine ⟨?_, ?_, ?_⟩
  · obtain ⟨s, hs, hp⟩ := halfFreedEnd
    exact ⟨s, hs, of_decide_eq_true hp⟩
  · obtain ⟨s, hs, hp⟩ := notDirEnd
    exact ⟨s, hs, of_decide_eq_true hp⟩
  · obtain ⟨s, hs, hp⟩ := noTypeEnd
    exact ⟨s, hs, of_decide_eq_true hp⟩

/-- **When `create` returns what was asked for.**  If no process tests `I_VALID` of the entry that
    is freed while the inode is free on disk and the entry still counts as valid, then every inode
    that `create` has allocated and returns has the requested type, in memory and on disk, and
    neither `"ilock: no type"` nor `"dirlookup not DIR"` is reached. -/
theorem create_returns_type (h : CrRuns c (Clear c) s) :
    (∀ p ip, s.proc p = .ret ip → (s.ip ip).di.type = (c.args p).type ∧
      (s.dinode (s.ip ip).inum).type = (c.args p).type) ∧
    s.panicked ≠ some .noType ∧ s.panicked ≠ some .notDir := by
  have hi := CrInv.of_runs h
  refine ⟨fun p ip hpc => ?_, hi.panicked⟩
  have hv : ip ∈ (s.proc p).valids := by rw [hpc]; exact List.mem_singleton_self _
  have ht := (hi.proc p).newIp (i := ip) (by rw [hpc]; rfl)
  exact ⟨(hi.type_of_valids hv).trans ht, ht⟩

theorem clear_of_not_last (s : CrState) (who : Option ℕ)
    (hc : decide (s.iput ≠ .last ∨ who = none) = true) : Clear c s who := by
  intro p r hw _ hl
  rcases of_decide_eq_true hc with hc | hc
  · exact hc hl
  · rw [hc] at hw
    cases hw

/-- `iput` is through before process 0 comes. -/
def afterEnd : Reached (CrRuns (race T_FILE (by decide)) (Clear (race T_FILE (by decide))))
    fun s => s.proc 0 = .ret 0 :=
  raceRun _ clear_of_not_last (freeing ++ [(none, .go)] ++ creating 0 16) (by decide +kernel)

theorem create_returns_type_after :
    ∃ s, CrRuns (race T_FILE (by decide)) (Clear (race T_FILE (by decide))) s ∧ s.proc 0 = .ret 0 ∧
      (s.ip 0).di.type = T_FILE ∧ (s.dinode (s.ip 0).inum).type = T_FILE := by
  obtain ⟨s, hs, hp⟩ := afterEnd
  have hret := of_decide_eq_true hp
  have := (create_returns_type hs).1 0 0 hret
  exact ⟨s, hs, hret, this⟩

end CrState

end Xv6

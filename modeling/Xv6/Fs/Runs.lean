/-
  Runs of the file system operations.

  `Fs.exec` executes one call of `fs.c` on the file system with its inode
  cache.  `Consistent` joins the invariant of the disk (`Owned`) with that of
  the cache: an inode is cached once, and a valid entry is the inode on disk.
  Every call keeps it (`Consistent.exec`), and so does every run.
-/
import Xv6.Fs.Consistent

namespace Xv6

open Own Fallible Transition Function

/-! ## The calls -/

/-- A call of `fs.c`.  `update` stands for the callers' assignments to the fields of an inode,
    followed by `iupdate`. -/
inductive FsOp where
  | iget (inum : ℕ)
  | idup (i : Fin NINODE)
  | ilock (i : Fin NINODE)
  | ialloc (type : Int16)
  | update (i : Fin NINODE) (major minor nlink : Int16)
  | readi (i : Fin NINODE) (off n : ℕ)
  | writei (i : Fin NINODE) (src : List UInt8) (off : ℕ)
  | dirlink (i : Fin NINODE) (name : List UInt8) (inum : UInt16)
  | iput (i : Fin NINODE)

/-- The file system after a call on entry `i` that returns the inode and the disk. -/
def Fs.put (fs : Fs) (i : Fin NINODE) (ip : Inode) (d : Disk) : Fs :=
  { fs with disk := d, icache := update fs.icache i ip }

@[simp] theorem Fs.put_sb (fs : Fs) (i : Fin NINODE) (ip : Inode) (d : Disk) :
    (fs.put i ip d).sb = fs.sb := rfl

@[simp] theorem Fs.put_disk (fs : Fs) (i : Fin NINODE) (ip : Inode) (d : Disk) :
    (fs.put i ip d).disk = d := rfl

@[simp] theorem Fs.put_self (fs : Fs) (i : Fin NINODE) (ip : Inode) (d : Disk) :
    (fs.put i ip d).icache i = ip := update_self ..

theorem Fs.put_ne (fs : Fs) {i j : Fin NINODE} (ip : Inode) (d : Disk) (h : j ≠ i) :
    (fs.put i ip d).icache j = fs.icache j := update_of_ne h ..

def Fs.exec (dev : Devsw) (fs : Fs) : FsOp → Except FsPanic Fs
  | .iget inum => do
    let (_, c) ← Xv6.iget fs.icache ROOTDEV inum
    .ok { fs with icache := c }
  | .idup i => .ok { fs with icache := Xv6.idup fs.icache i }
  | .ilock i => Xv6.ilock fs i
  | .ialloc type => do
    let (_, fs) ← Xv6.ialloc fs ROOTDEV type
    .ok fs
  | .update i major minor nlink =>
    let ip := fs.icache i
    let ip := { ip with di := { ip.di with major, minor, nlink } }
    .ok (fs.put i ip (iupdate fs.sb fs.disk ip))
  | .readi i off n => do
    let (_, ip, d) ← Xv6.readi fs.sb dev fs.disk (fs.icache i) off n
    .ok (fs.put i ip d)
  | .writei i src off => do
    let (_, ip, d) ← Xv6.writei fs.sb dev fs.disk (fs.icache i) src off
    .ok (fs.put i ip d)
  | .dirlink i name inum => do
    let (_, fs) ← Xv6.dirlink dev fs i name inum
    .ok fs
  | .iput i => Xv6.iput fs i

/-- Entry `i` is referenced. -/
def Fs.Ref (fs : Fs) (i : Fin NINODE) : Prop := 0 < (fs.icache i).ref

/-- Entry `i` is referenced and has been locked by `ilock` before. -/
def Fs.Locked (fs : Fs) (i : Fin NINODE) : Prop := fs.Ref i ∧ (fs.icache i).valid = true

/-- What the callers see to: inode numbers are in range, types are not 0, the inode is referenced
    and, for its contents, locked; a count fits into a `uint`. -/
def FsOp.Ready (fs : Fs) : FsOp → Prop
  | .iget inum => inum < fs.sb.ninodes
  | .idup i => fs.Ref i
  | .ilock i => fs.Ref i
  | .ialloc type => type ≠ 0
  | .update i _ _ _ => fs.Locked i
  | .readi i _ _ => fs.Locked i
  | .writei i src _ => fs.Locked i ∧ src.length < 2 ^ 32
  | .dirlink i _ _ => fs.Locked i
  | .iput i => fs.Ref i

/-- A call that does not panic. -/
def FsStep (dev : Devsw) (fs : Fs) (op : FsOp) (fs' : Fs) : Prop :=
  op.Ready fs ∧ fs.exec dev op = .ok fs'

/-! ## The invariant -/

/-- What holds of an entry of the inode cache that is referenced. -/
structure EntryOk (sb : Superblock) (d : Disk) (ip : Inode) : Prop where
  dev : ip.dev = ROOTDEV
  range : ip.inum < sb.ninodes
  valid : ip.valid = true → dinodeAt sb d ip.inum = ip.di ∧ ip.di.type ≠ 0

structure Consistent (F : Prop) (fs : Fs) : Prop where
  owned : Owned F fs.sb fs.disk
  entry : ∀ {i}, fs.Ref i → EntryOk fs.sb fs.disk (fs.icache i)
  once : ∀ {i j}, fs.Ref i → fs.Ref j → (fs.icache i).inum = (fs.icache j).inum → i = j

namespace Consistent

variable {F : Prop} {fs fs' : Fs} {i : Fin NINODE} {ip : Inode} {d : Disk} {dev : Devsw}

/-- Entry `i` of the cache and the inode of that entry on disk change. -/
theorem put (h : Consistent F fs) (ho : Owned F fs.sb d)
    (hip : 0 < ip.ref → EntryOk fs.sb d ip)
    (hother : ∀ {j}, j ≠ i → fs.Ref j → (0 < ip.ref → (fs.icache j).inum ≠ ip.inum) ∧
      ((fs.icache j).valid = true →
        dinodeAt fs.sb d (fs.icache j).inum = dinodeAt fs.sb fs.disk (fs.icache j).inum)) :
    Consistent F (fs.put i ip d) := by
  have hself : (fs.put i ip d).icache i = ip := fs.put_self i ip d
  have hne : ∀ {j}, j ≠ i → (fs.put i ip d).icache j = fs.icache j := fs.put_ne ip d
  refine ⟨ho, fun {j} hj => ?_, fun {j k} hj hk heq => ?_⟩
  · rw [Fs.Ref] at hj
    by_cases hji : j = i
    · rw [hji, hself] at hj ⊢
      exact hip hj
    · rw [hne hji] at hj ⊢
      have he := h.entry hj
      refine ⟨he.dev, he.range, fun hv => ?_⟩
      have := he.valid hv
      exact ⟨((hother hji hj).2 hv).trans this.1, this.2⟩
  · rw [Fs.Ref] at hj hk
    by_cases hji : j = i
    · by_cases hki : k = i
      · rw [hji, hki]
      · rw [hji, hself] at hj heq
        rw [hne hki] at hk heq
        exact absurd heq.symm ((hother hki hk).1 hj)
    · rw [hne hji] at hj heq
      by_cases hki : k = i
      · rw [hki, hself] at hk heq
        exact absurd heq ((hother hji hj).1 hk)
      · rw [hne hki] at hk heq
        exact h.once hj hk heq

/-- Two referenced entries are for different inodes. -/
theorem inum_ne (h : Consistent F fs) {j : Fin NINODE} (hi : fs.Ref i) (hj : fs.Ref j) (hji : j ≠ i) :
    (fs.icache j).inum ≠ (fs.icache i).inum := fun heq => hji (h.once hj hi heq)

/-- The reference count of an entry changes, or `ilock` reads it from disk. -/
theorem put_entry (h : Consistent F fs) (hi : fs.Ref i) (hinum : ip.inum = (fs.icache i).inum)
    (hip : 0 < ip.ref → EntryOk fs.sb fs.disk ip) : Consistent F (fs.put i ip fs.disk) :=
  h.put h.owned hip fun hji hj => ⟨fun _ => by rw [hinum]; exact h.inum_ne hi hj hji, fun _ => rfl⟩

/-- The inode of a referenced entry changes, in memory and on disk. -/
theorem put_kept (h : Consistent F fs) (hi : fs.Ref i)
    (hk : Kept F fs.sb fs.disk (fs.icache i) ip d) : Consistent F (fs.put i ip d) := by
  have he := h.entry hi
  have hinum : ip.inum = (fs.icache i).inum := by rw [hk.eq]
  refine h.put hk.owned (fun _ => ⟨?_, ?_, fun _ => ?_⟩) fun hji hj => ⟨fun _ => ?_, fun _ => ?_⟩
  · rw [hk.eq]
    exact he.dev
  · rw [hinum]
    exact he.range
  · rw [hinum]
    exact ⟨hk.self, hk.type⟩
  · rw [hinum]
    exact h.inum_ne hi hj hji
  · exact hk.other (h.entry hj).range (h.inum_ne hi hj hji)

/-! ## The calls on the cache -/

variable {inum : ℕ} {c : Icache}

theorem iget_cases {c c' : Icache} {dv : UInt32} {j : Fin NINODE}
    (h : Xv6.iget c dv inum = .ok (j, c')) :
    (0 < (c j).ref ∧ (c j).inum = inum ∧ c' = update c j { c j with ref := (c j).ref + 1 }) ∨
    ((c j).ref = 0 ∧ (∀ k, 0 < (c k).ref → (c k).dev = dv → (c k).inum ≠ inum) ∧
      c' = update c j ⟨dv, inum, 1, false, (c j).di⟩) := by
  unfold Xv6.iget at h
  split at h
  · rename_i i hi
    cases h
    have := List.find?_some hi
    simp only [decide_eq_true_eq] at this
    exact .inl ⟨this.1, this.2.2, rfl⟩
  · rename_i hnone
    split at h
    · rename_i i hi
      cases h
      have h0 := List.find?_some hi
      simp only [decide_eq_true_eq] at h0
      refine .inr ⟨h0, fun k hk hd heq => ?_, rfl⟩
      have := List.find?_eq_none.1 hnone k (List.mem_finRange k)
      exact this (by simp [hk, hd, heq])
    · cases h

theorem iget_safe {dv : UInt32} :
    Safe .freeingFree (fun r => Xv6.iget c dv inum = .ok r) (Xv6.iget c dv inum) := by
  refine ⟨?_, fun _ hr => hr⟩
  unfold Xv6.iget
  split
  · rintro ⟨⟩
  · split <;> rintro ⟨⟩

/-- `iget`, where inode `inum` may have been written on disk if it was free. -/
theorem iget (h : Consistent F fs) (hi : inum < fs.sb.ninodes)
    (hok : Xv6.iget fs.icache ROOTDEV inum = .ok (i, c)) (ho : Owned F fs.sb d)
    (hd : ∀ {k}, k < fs.sb.ninodes → k ≠ inum → dinodeAt fs.sb d k = dinodeAt fs.sb fs.disk k)
    (hfree : dinodeAt fs.sb d inum = dinodeAt fs.sb fs.disk inum ∨
      (dinodeAt fs.sb fs.disk inum).type = 0) :
    Consistent F { fs with disk := d, icache := c } := by
  rcases iget_cases hok with ⟨hr, rfl, rfl⟩ | ⟨hr, hno, rfl⟩
  · have he := h.entry hr
    refine h.put ho (fun _ => ⟨he.dev, he.range, fun hv => ?_⟩) fun hji hj => ⟨fun _ => ?_, fun _ => ?_⟩
    · -- a valid entry is not the one of a free inode
      obtain ⟨hdi, ht⟩ := he.valid hv
      rcases hfree with heq | h0
      · exact ⟨heq.trans hdi, ht⟩
      · rw [hdi] at h0
        exact absurd h0 ht
    · exact h.inum_ne hr hj hji
    · exact hd (h.entry hj).range (h.inum_ne hr hj hji)
  · refine h.put ho (fun _ => ⟨rfl, hi, by rintro ⟨⟩⟩) fun hji hj => ?_
    have hne := hno _ hj (h.entry hj).dev
    exact ⟨fun _ => hne, fun _ => hd (h.entry hj).range hne⟩

theorem ilock (h : Consistent F fs) (hi : fs.Ref i) (hok : Xv6.ilock fs i = .ok fs') :
    Consistent F fs' := by
  have he := h.entry hi
  simp only [Xv6.ilock] at hok
  split_ifs at hok with hr hv ht
  · cases hok
    exact h
  · cases hok
    exact h.put_entry hi rfl fun _ => ⟨he.dev, he.range, fun _ => ⟨rfl, ht⟩⟩

theorem freeInode_some {sb : Superblock} (h : freeInode sb d = some inum) :
    inum < sb.ninodes ∧ (dinodeAt sb d inum).type = 0 := by
  have hm := List.mem_of_find?_eq_some h
  have ht := List.find?_some h
  rw [List.mem_range'_1] at hm
  exact ⟨by omega, of_decide_eq_true ht⟩

theorem ialloc (h : Consistent F fs) {type : Int16}
    (hok : Xv6.ialloc fs ROOTDEV type = .ok (i, fs')) : Consistent F fs' := by
  unfold Xv6.ialloc at hok
  split at hok
  · rename_i inum hfree
    obtain ⟨hi, h0⟩ := freeInode_some hfree
    obtain ⟨⟨j, c⟩, hget, hok⟩ := bind_ok hok
    cases hok
    refine h.iget hi hget (h.owned.ialloc hi h0 type) (fun hk hne => ?_) (.inr h0)
    rw [dinodeAt_setDinode h.owned.refs.ok hi hk, if_neg hne]
  · cases hok

/-- What `iput` does: it frees the inode, or it only counts. -/
def Iput (F : Prop) (fs : Fs) (i : Fin NINODE) (fs' : Fs) : Prop :=
  ((fs.icache i).ref = 1 ∧ (fs.icache i).valid = true ∧ (fs.icache i).di.nlink = 0 ∧
    ∃ ip d, ip.inum = (fs.icache i).inum ∧ ip.ref = 0 ∧ Removed F fs.sb fs.disk (fs.icache i) d ∧
      fs' = fs.put i ip d) ∨
  (¬ ((fs.icache i).ref = 1 ∧ (fs.icache i).valid = true ∧ (fs.icache i).di.nlink = 0) ∧
    fs' = fs.put i { fs.icache i with ref := (fs.icache i).ref - 1 } fs.disk)

/-- **`iput`** does not panic. -/
theorem iput_ok (h : Consistent F fs) (hi : fs.Ref i) :
    ∃ fs', Xv6.iput fs i = .ok fs' ∧ Iput F fs i fs' := by
  have he := h.entry hi
  simp only [Xv6.iput]
  split_ifs with hc
  · obtain ⟨hr, hv, h0⟩ := hc
    obtain ⟨hdi, ht⟩ := he.valid hv
    obtain ⟨d₁, hd, hrem⟩ := h.owned.free he.range ht hdi
    refine ⟨_, by simp only [hd, bind, Except.bind]; rfl, .inl ⟨hr, hv, h0, _, _, ?_, ?_, hrem, rfl⟩⟩
    · rfl
    · show (fs.icache i).ref - 1 = 0
      rw [hr]
  · exact ⟨_, rfl, .inr ⟨hc, rfl⟩⟩

theorem iput (h : Consistent F fs) (hi : fs.Ref i) (hp : Iput F fs i fs') : Consistent F fs' := by
  have he := h.entry hi
  rcases hp with ⟨hr, -, -, ip, d, hinum, h0, hrem, rfl⟩ | ⟨-, rfl⟩
  · refine h.put hrem.owned (fun hpos => absurd h0 hpos.ne') fun hji hj => ⟨fun hpos => ?_, fun _ => ?_⟩
    · exact absurd h0 hpos.ne'
    · exact hrem.other (h.entry hj).range (h.inum_ne hi hj hji)
  · exact h.put_entry hi rfl fun _ => ⟨he.dev, he.range, he.valid⟩

/-! ## Directories -/

/-- An entry that `iget` has just returned is not freed by `iput`: it has another reference, or
    has not been read from disk. -/
theorem iget_iput (h : Consistent F fs) (hok : Xv6.iget fs.icache ROOTDEV inum = .ok (i, c)) :
    ∃ fs', Xv6.iput { fs with icache := c } i = .ok fs' ∧ Consistent F fs' ∧ fs'.sb = fs.sb ∧
      fs'.disk = fs.disk ∧ ∀ k, fs.Ref k → fs'.icache k = fs.icache k := by
  rcases iget_cases hok with ⟨hr, rfl, rfl⟩ | ⟨hr, -, rfl⟩
  · refine ⟨fs, ?_, h, rfl, rfl, fun _ _ => rfl⟩
    simp only [Xv6.iput, update_self]
    rw [if_neg fun hc => hr.ne' (Nat.succ_injective hc.1), Nat.add_sub_cancel, update_idem,
      update_eq_self]
  · refine ⟨fs.put i ⟨ROOTDEV, inum, 0, false, (fs.icache i).di⟩ fs.disk, ?_,
      h.put h.owned (by rintro ⟨⟩) fun _ _ => ⟨by rintro ⟨⟩, fun _ => rfl⟩, rfl, rfl, fun k hk => ?_⟩
    · simp only [Xv6.iput, update_self]
      rw [if_neg (by simp), update_idem]
      rfl
    · refine fs.put_ne _ _ ?_
      rintro rfl
      exact hr.not_gt hk

theorem findDirent_safe (h : Consistent F fs) (hi : fs.Locked i) {e : FsPanic} (he : e ≠ .freeingFree)
    (p : Dirent → Bool) (fuel : ℕ) : ∀ off, Safe .freeingFree
      (fun r => r.2.2 = (fs.icache i, fs.disk))
      (findDirent fs.sb dev e p fuel fs.disk (fs.icache i) off) := by
  have hent := h.entry hi.1
  obtain ⟨hdi, ht⟩ := hent.valid hi.2
  induction fuel with
  | zero => exact fun off => .ok rfl
  | succ fuel ih =>
    intro off
    obtain ⟨r, hr⟩ := readi_kept dev h.owned hent.range ht hdi off 16
    have hread : Safe .freeingFree (fun r => r.2 = (fs.icache i, fs.disk))
        (readDirent fs.sb dev fs.disk (fs.icache i) off) := by
      rw [readDirent, hr]
      cases r <;> exact .ok rfl
    rw [findDirent]
    split
    · exact .ok rfl
    · refine hread.bind ?_
      rintro ⟨r, _⟩ rfl
      cases r with
      | none => exact .error he
      | some de =>
        dsimp only
        split
        · exact .ok rfl
        · exact ih (off + 16)

theorem dirlookup_safe (h : Consistent F fs) (hi : fs.Locked i) (name : List UInt8) :
    Safe .freeingFree (fun r => r.1 = none ∧ r.2 = fs ∨ ∃ j off inum c, r.1 = some (j, off) ∧
      Xv6.iget fs.icache ROOTDEV inum = .ok (j, c) ∧ r.2 = { fs with icache := c })
      (dirlookup dev fs i name) := by
  have hdev := (h.entry hi.1).dev
  unfold dirlookup
  dsimp only
  split
  · exact .error (by rintro ⟨⟩)
  · refine (h.findDirent_safe hi (e := .dirlookupRead) (by rintro ⟨⟩) _ _ 0).bind ?_
    rintro ⟨off, r, _⟩ rfl
    simp only [update_eq_self]
    cases r with
    | none => exact .ok (.inl ⟨rfl, rfl⟩)
    | some de =>
      dsimp only
      rw [hdev]
      exact iget_safe.bind fun r hget => .ok (.inr ⟨r.1, off, _, r.2, rfl, hget, rfl⟩)

theorem dirlink (h : Consistent F fs) (hi : fs.Locked i) (name : List UInt8) (inum : UInt16) :
    Safe .freeingFree (fun r => Consistent F r.2) (Xv6.dirlink dev fs i name inum) := by
  have hent := h.entry hi.1
  obtain ⟨hdi, ht⟩ := hent.valid hi.2
  unfold Xv6.dirlink
  refine (h.dirlookup_safe hi name).bind ?_
  rintro ⟨r, fs₁⟩ (⟨rfl, rfl⟩ | ⟨j, off, inum', c, rfl, hget, rfl⟩)
  · dsimp only
    refine (h.findDirent_safe hi (e := .dirlinkRead) (by rintro ⟨⟩) _ _ 0).bind ?_
    rintro ⟨off, r, _⟩ rfl
    refine (writei_safe h.owned hent.range ht hdi ?_).bind fun r hk => ?_
    · rw [Dirent.length_toBytes]
      decide
    · split
      · exact .ok (h.put_kept hi.1 hk)
      · exact .error (by rintro ⟨⟩)
  · obtain ⟨fs', hput, hc, -⟩ := h.iget_iput hget
    dsimp only
    rw [hput]
    exact .ok hc

/-! ## Runs -/

/-- **Every call** keeps the invariant, and `bfree` does not panic in it. -/
theorem exec (h : Consistent F fs) {op : FsOp} (hr : op.Ready fs) :
    Safe .freeingFree (Consistent F) (fs.exec dev op) := by
  cases op with
  | iget inum =>
    exact iget_safe.bind fun r hget => .ok (h.iget hr hget h.owned (fun _ _ => rfl) (.inl rfl))
  | idup i =>
    have he := h.entry hr
    exact .ok (h.put_entry hr rfl fun _ => ⟨he.dev, he.range, he.valid⟩)
  | ilock i =>
    refine ⟨?_, fun _ hok => h.ilock hr hok⟩
    simp only [Fs.exec, Xv6.ilock]
    split_ifs <;> rintro ⟨⟩
  | ialloc type =>
    have hs : Safe .freeingFree (fun r => Consistent F r.2) (Xv6.ialloc fs ROOTDEV type) := by
      refine ⟨?_, fun _ hok => h.ialloc hok⟩
      unfold Xv6.ialloc
      split
      · exact (iget_safe.bind fun _ _ => .ok (Q := fun _ => True) trivial).1
      · rintro ⟨⟩
    exact hs.bind fun r hr => .ok hr
  | update i major minor nlink =>
    have he := h.entry hr.1
    obtain ⟨hdi, ht⟩ := he.valid hr.2
    exact .ok (h.put_kept hr.1 (iupdate_kept h.owned he.range ht hdi ..))
  | readi i off n =>
    have he := h.entry hr.1
    obtain ⟨hdi, ht⟩ := he.valid hr.2
    obtain ⟨r, hok⟩ := readi_kept dev h.owned he.range ht hdi off n
    rw [Fs.exec, hok]
    exact .ok (h.put_kept hr.1 (.refl h.owned ht hdi))
  | writei i src off =>
    have he := h.entry hr.1.1
    obtain ⟨hdi, ht⟩ := he.valid hr.1.2
    exact (writei_safe h.owned he.range ht hdi hr.2).bind fun r hk => .ok (h.put_kept hr.1.1 hk)
  | dirlink i name inum => exact (h.dirlink hr name inum).bind fun r hc => .ok hc
  | iput i =>
    obtain ⟨fs', hok, hp⟩ := h.iput_ok hr
    rw [Fs.exec, hok]
    exact .ok (h.iput hr hp)

theorem reach {fs₀ : Fs} (h : Consistent F fs₀) (hr : Reach (· = fs₀) (FsStep dev) fs) : Consistent F fs :=
  hr.inv (fun _ heq => heq ▸ h) fun _ _ _ hc hs => (hc.exec hs.1).2 _ hs.2

end Consistent

/-! ## Block ownership -/

/-- The bit map, the block pointers and the sizes agree. -/
structure BlocksOwned (sb : Superblock) (d : Disk) : Prop where
  /-- a bit is set iff the block holds metadata or an allocated inode refers to it -/
  bitmap : ∀ b : BlockNo, b.toNat < sb.size → (bitAt sb d b.toNat = true ↔ b.toNat < sb.nmeta ∨
    ∃ i < sb.ninodes, (dinodeAt sb d i).type ≠ 0 ∧ ∃ s, (dinodeAt sb d i).slot d s = b)
  /-- a data block in use, and every block an allocated inode refers to, is referred to from
      exactly one place -/
  once : ∀ b : BlockNo, (sb.IsData b ∧ bitAt sb d b.toNat = true ∨
    ∃ k, owner sb (dinodeAt sb d) d k = some b) → sb.IsData b ∧
    ∃! k, owner sb (dinodeAt sb d) d k = some b
  /-- the `n`th address is set iff the file has an `n`th block -/
  blocks : ∀ i < sb.ninodes, (dinodeAt sb d i).type ≠ 0 → ∀ n < MAXFILE,
    ((dinodeAt sb d i).slot d (fileSlot n) ≠ 0 ↔ n < ((dinodeAt sb d i).size.toNat + BSIZE - 1) / BSIZE)
  /-- there is an indirect block iff the file needs one -/
  indirect : ∀ i < sb.ninodes, (dinodeAt sb d i).type ≠ 0 →
    ((dinodeAt sb d i).addrs iaddr ≠ 0 ↔ NDIRECT * BSIZE < (dinodeAt sb d i).size.toNat)
  size : ∀ i < sb.ninodes, (dinodeAt sb d i).type ≠ 0 →
    (dinodeAt sb d i).size.toNat ≤ MAXFILE * BSIZE

variable {sb : Superblock} {d : Disk}

theorem Owned.blocksOwned {F : Prop} (h : Owned F sb d) :
    BlocksOwned sb d := by
  have hown := h.refs.owns
  refine ⟨fun b hb => ?_, fun b hb => ?_, fun i hi ht n hn => (h.filled hi ht).blocks hn,
    fun i hi ht => ?_, fun i hi ht => h.size hi ht⟩
  · constructor
    · intro hbit
      by_cases hm : b.toNat < sb.nmeta
      · exact .inl hm
      · obtain ⟨⟨i, s⟩, hk⟩ := (hown.used_iff b).1 ⟨⟨Nat.not_lt.1 hm, hb⟩, hbit⟩
        rw [owner] at hk
        split_ifs at hk with hc
        exact .inr ⟨i, hc.1, hc.2.1, s, Option.some.inj hk⟩
    · rintro (hm | ⟨i, hi, ht, s, rfl⟩)
      · exact h.refs.nmeta _ hm
      · by_cases h0 : (dinodeAt sb d i).slot d s = 0
        · rw [h0]
          exact h.refs.nmeta 0 (Nat.succ_pos _)
        · exact (h.refs.used_slot hi ht h0).2
  · have hu : Used sb d b := hb.elim id fun h => h.elim fun _ => hown.mem
    obtain ⟨k, hk⟩ := (hown.used_iff b).1 hu
    exact ⟨hu.1, k, hk, fun l hl => hown.inj hl hk⟩
  · rw [(h.filled hi ht).iaddr]
    simp only [nblocks, NDIRECT, BSIZE]
    omega

/-- **Disk blocks have one owner.**  After every run of calls that do not panic, the bit map, the
    block pointers and the sizes agree; free inodes stay empty; `readi` changes nothing; and no
    call makes `bfree` panic. -/
theorem disk_blocks_owned {F : Prop} {dev : Devsw} {fs₀ fs : Fs} (h : Consistent F fs₀)
    (hr : Reach (· = fs₀) (FsStep dev) fs) :
    BlocksOwned fs.sb fs.disk ∧
    (F → ∀ i < fs.sb.ninodes, (dinodeAt fs.sb fs.disk i).type = 0 →
      (dinodeAt fs.sb fs.disk i).Empty) ∧
    (∀ i off n, fs.Locked i →
      ∃ r, readi fs.sb dev fs.disk (fs.icache i) off n = .ok (r, fs.icache i, fs.disk)) ∧
    ∀ op : FsOp, op.Ready fs → fs.exec dev op ≠ .error .freeingFree := by
  have hc := h.reach hr
  refine ⟨hc.owned.blocksOwned, fun hF i hi ht => hc.owned.empty hF hi ht, fun i off n hi => ?_,
    fun op hop => (hc.exec hop).1⟩
  have he := hc.entry hi.1
  obtain ⟨hdi, ht⟩ := he.valid hi.2
  exact readi_kept dev hc.owned he.range ht hdi off n

/-! A small disk: inodes 0 and 1 in block 2, the bit map in block 3, 12 data blocks. -/

def smallSb : Superblock := ⟨16, 12, 2, 0, 2, 2, 3⟩

def smallDisk : Disk := fun b j =>
  if b = 1 then ([16, 0, 0, 0, 12, 0, 0, 0, 2, 0, 0, 0, 0, 0, 0, 0, 2, 0, 0, 0, 2, 0, 0, 0, 3] :
    List UInt8).getD j 0
  else if b = 3 ∧ j = 0 then 0x0f
  else 0

/-- No inode is allocated and none is cached. -/
def smallFs : Fs := ⟨smallSb, smallDisk, fun _ => ⟨0, 0, 0, false, .zero⟩⟩

/-- There are no devices. -/
def noDev : Devsw := ⟨fun _ => none, fun _ => none⟩

/-- A disk whose inodes have no blocks and whose bit map has the metadata only. -/
theorem empty_owned (hok : sb.Ok) (hsb : readsb d = sb)
    (hbits : ∀ c < sb.size, bitAt sb d c = decide (c < sb.nmeta)) (hle : sb.nmeta ≤ sb.size)
    (hfree : ∀ i < sb.ninodes, (dinodeAt sb d i).Empty) : Owned True sb d := by
  have hnone : ∀ k, owner sb (dinodeAt sb d) d k = none := fun k =>
    if_neg fun hk => hk.2.2 (slot_zero (hfree _ hk.1).1 k.2)
  have hsize : ∀ {i}, i < sb.ninodes → (dinodeAt sb d i).size.toNat = 0 := fun hi => by
    rw [(hfree _ hi).2]
    rfl
  refine ⟨⟨hok, hsb, fun c hc => ?_, ?_⟩, fun hi _ => ?_, fun hi _ => by simp [hsize hi],
    fun _ i hi _ => hfree i hi⟩
  · rw [hbits c (hc.trans_le hle)]
    exact decide_eq_true hc
  · refine ⟨fun {k l v} hk => ?_, fun v => iff_of_false (fun hv => ?_) fun hv => ?_⟩
    · rw [hnone] at hk
      cases hk
    · have h1 := hv.2
      rw [hbits _ hv.1.2] at h1
      exact absurd (of_decide_eq_true h1) hv.1.1.not_gt
    · obtain ⟨k, hk⟩ := hv
      rw [hnone] at hk
      cases hk
  · rw [hsize hi]
    exact ⟨fun _ => iff_of_false (absurd (slot_zero (hfree _ hi).1 _)) (Nat.not_lt_zero _),
      iff_of_false (absurd ((hfree _ hi).1 _)) (by decide)⟩

theorem empty_consistent (hok : sb.Ok) (hsb : readsb d = sb)
    (hbits : ∀ c < sb.size, bitAt sb d c = decide (c < sb.nmeta)) (hle : sb.nmeta ≤ sb.size)
    (hfree : ∀ i < sb.ninodes, dinodeAt sb d i = .zero) :
    Consistent True ⟨sb, d, fun _ => ⟨0, 0, 0, false, .zero⟩⟩ := by
  refine ⟨empty_owned hok hsb hbits hle fun i hi => ?_, by rintro _ ⟨⟩, by rintro _ _ ⟨⟩⟩
  rw [hfree i hi]
  exact ⟨fun _ => rfl, rfl⟩

theorem smallFs_consistent : Consistent True smallFs := by
  refine empty_consistent ⟨by decide, by decide, by decide, by decide⟩ (by decide +kernel)
    (by decide +kernel) (by decide) fun i hi => ?_
  have : i = 0 ∨ i = 1 := by
    simp only [smallSb] at hi
    omega
  rcases this with rfl | rfl <;> exact Dinode.ext (by decide) (by decide) (by decide) (by decide)
    (by decide) (funext (by decide))

instance (fs : Fs) : DecidablePred (FsOp.Ready fs)
  | .iget inum => inferInstanceAs (Decidable (inum < _))
  | .idup i => inferInstanceAs (Decidable (0 < (fs.icache i).ref))
  | .ilock i => inferInstanceAs (Decidable (0 < (fs.icache i).ref))
  | .ialloc type => inferInstanceAs (Decidable (type ≠ 0))
  | .update i _ _ _ => inferInstanceAs (Decidable (0 < (fs.icache i).ref ∧ (fs.icache i).valid = true))
  | .readi i _ _ => inferInstanceAs (Decidable (0 < (fs.icache i).ref ∧ (fs.icache i).valid = true))
  | .writei i src _ => inferInstanceAs
    (Decidable ((0 < (fs.icache i).ref ∧ (fs.icache i).valid = true) ∧ src.length < 2 ^ 32))
  | .dirlink i _ _ => inferInstanceAs
    (Decidable (0 < (fs.icache i).ref ∧ (fs.icache i).valid = true))
  | .iput i => inferInstanceAs (Decidable (0 < (fs.icache i).ref))

theorem fsStep_of_exec {dev : Devsw} (fs : Fs) (op : FsOp) (fs' : Fs)
    (hs : (if op.Ready fs then (fs.exec dev op).toOption else none) = some fs') :
    FsStep dev fs op fs' := by
  split_ifs at hs with hop
  refine ⟨hop, ?_⟩
  cases hex : fs.exec dev op with
  | error e => rw [hex] at hs; cases hs
  | ok fs' => rw [hex] at hs; cases hs; rfl

/-- A file is made and three bytes are written to it. -/
def smallEnd : Reached (Reach (· = smallFs) (FsStep noDev)) fun fs =>
    (dinodeAt fs.sb fs.disk 1).size = 3 ∧ bitAt fs.sb fs.disk 4 = true :=
  .ofRun _ fsStep_of_exec rfl [.ialloc T_FILE, .ilock 0, .writei 0 [1, 2, 3] 0]
    (by decide +kernel)

theorem disk_blocks_owned_small : ∃ fs, Reach (· = smallFs) (FsStep noDev) fs ∧
    (dinodeAt fs.sb fs.disk 1).size = 3 ∧ bitAt fs.sb fs.disk 4 = true ∧
    BlocksOwned fs.sb fs.disk := by
  obtain ⟨fs, hr, hp⟩ := smallEnd
  exact ⟨fs, hr, (of_decide_eq_true hp).1, (of_decide_eq_true hp).2,
    (disk_blocks_owned smallFs_consistent hr).1⟩

end Xv6

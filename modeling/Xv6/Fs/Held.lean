/-
  References that a call holds.

  A system call takes references to inodes and drops them again.  `Held fs l
  fs'` says that `fs'` is `fs` with one more reference for every entry of the
  list `l`: the disk is the same, and so is everything that the references
  of others rely on.  `iget` and `idup` put an entry on the list, `iput` takes
  it off, as long as it is not the last hold on an inode without links
  (`Fs.Anchored`).
-/
import Xv6.Fs.Dirmap

namespace Xv6

open Fallible

/-- The inode `n` on disk. -/
abbrev Fs.dinode (fs : Fs) (n : ℕ) : Dinode := dinodeAt fs.sb fs.disk n

/-- Inode `n` is not freed when a reference is dropped: it has links, or is in use. -/
def Fs.Anchored (fs : Fs) (n : ℕ) : Prop :=
  (fs.dinode n).nlink ≠ 0 ∨ ∃ k, fs.Ref k ∧ (fs.icache k).inum = n

structure Held (F : Prop) (fs : Fs) (l : List (Fin NINODE)) (fs' : Fs) : Prop where
  cons : Consistent F fs'
  sb : fs'.sb = fs.sb
  disk : fs'.disk = fs.disk
  ref : ∀ k, (fs'.icache k).ref = (fs.icache k).ref + l.count k
  inum : ∀ k, fs.Ref k → (fs'.icache k).inum = (fs.icache k).inum
  valid : ∀ k, fs.Ref k → (fs.icache k).valid = true → (fs'.icache k).valid = true

namespace Held

variable {F : Prop} {fs fs' : Fs} {l : List (Fin NINODE)} {i j k : Fin NINODE} {n : ℕ}

theorem refl (h : Consistent F fs) : Held F fs [] fs where
  cons := h
  sb := rfl
  disk := rfl
  ref _ := rfl
  inum _ _ := rfl
  valid _ _ hv := hv

theorem perm {l' : List (Fin NINODE)} (h : Held F fs l fs') (hl : l.Perm l') : Held F fs l' fs' :=
  { h with ref := fun k => by rw [h.ref, hl.count_eq] }

theorem dinode (h : Held F fs l fs') (n : ℕ) : fs'.dinode n = fs.dinode n := by
  rw [Fs.dinode, Fs.dinode, h.sb, h.disk]

theorem dir (h : Held F fs l fs') (n : ℕ) : fs'.dir n = fs.dir n := by
  rw [Fs.dir, Fs.dir, h.sb, h.disk]

theorem lookup (h : Held F fs l fs') (n : ℕ) (name : List UInt8) :
    fs'.lookup n name = fs.lookup n name := by
  rw [Fs.lookup, Fs.lookup, h.dir]

theorem ref_of_mem (h : Held F fs l fs') (hi : i ∈ l) : fs'.Ref i := by
  have := h.ref i
  have := List.count_pos_iff.2 hi
  rw [Fs.Ref]
  omega

theorem ref_of_ref (h : Held F fs l fs') (hk : fs.Ref k) : fs'.Ref k := by
  rw [Fs.Ref, h.ref]
  exact hk.trans_le (Nat.le_add_right _ _)

/-- The references change at one entry. -/
theorem put (h : Held F fs l fs') {l' : List (Fin NINODE)} (ip : Inode)
    (hc : Consistent F (fs'.put i ip fs'.disk))
    (hl : ∀ {k}, k ≠ i → l'.count k = l.count k) (href : ip.ref = (fs.icache i).ref + l'.count i)
    (hin : fs.Ref i → ip.inum = (fs'.icache i).inum ∧
      ((fs'.icache i).valid = true → ip.valid = true)) :
    Held F fs l' (fs'.put i ip fs'.disk) := by
  refine ⟨hc, h.sb, h.disk, fun k => ?_, fun k hk => ?_, fun k hk hv => ?_⟩ <;> by_cases hki : k = i
  · subst hki
    rw [Fs.put_self, href]
  · rw [Fs.put_ne _ _ _ hki, hl hki, h.ref]
  · subst hki
    rw [Fs.put_self, (hin hk).1, h.inum k hk]
  · rw [Fs.put_ne _ _ _ hki, h.inum k hk]
  · subst hki
    rw [Fs.put_self]
    exact (hin hk).2 (h.valid k hk hv)
  · rw [Fs.put_ne _ _ _ hki]
    exact h.valid k hk hv

/-- `iget` takes a reference to inode `n`. -/
theorem iget (h : Held F fs l fs') {c : Icache} (hn : n < fs.sb.ninodes)
    (hget : Xv6.iget fs'.icache ROOTDEV n = .ok (j, c)) :
    Held F fs (j :: l) { fs' with icache := c } ∧ (c j).inum = n := by
  have hc : Consistent F { fs' with icache := c } :=
    h.cons.iget (by rw [h.sb]; exact hn) hget h.cons.owned (fun _ _ => rfl) (.inl rfl)
  have hl : ∀ {k}, k ≠ j → (j :: l).count k = l.count k := fun hk =>
    List.count_cons_of_ne hk.symm
  have hself : (j :: l).count j = l.count j + 1 := List.count_cons_self
  rcases Consistent.iget_cases hget with ⟨hr, hinum, rfl⟩ | ⟨h0, -, rfl⟩
  · refine ⟨h.put { fs'.icache j with ref := (fs'.icache j).ref + 1 } hc hl ?_
      fun _ => ⟨rfl, id⟩, ?_⟩
    · have := h.ref j
      show (fs'.icache j).ref + 1 = _
      omega
    · rw [Function.update_self]
      exact hinum
  · have href := h.ref j
    refine ⟨h.put ⟨ROOTDEV, n, 1, false, (fs'.icache j).di⟩ hc hl ?_ fun hj => ?_, ?_⟩
    · show 1 = _
      omega
    · have : 0 < (fs.icache j).ref := hj
      omega
    · rw [Function.update_self]

theorem idup (h : Held F fs l fs') (hi : fs'.Ref i) :
    Held F fs (i :: l) { fs' with icache := Xv6.idup fs'.icache i } := by
  have he := h.cons.entry hi
  refine h.put { fs'.icache i with ref := (fs'.icache i).ref + 1 }
    (h.cons.put_entry hi rfl fun _ => ⟨he.dev, he.range, he.valid⟩)
    (fun hk => List.count_cons_of_ne hk.symm) ?_ fun _ => ⟨rfl, id⟩
  have := h.ref i
  have hself : (i :: l).count i = l.count i + 1 := List.count_cons_self
  show (fs'.icache i).ref + 1 = _
  omega

/-- `ilock` reads the inode from disk, if it is not free. -/
theorem ilock (h : Held F fs l fs') (hi : fs'.Ref i) :
    (Xv6.ilock fs' i = .error .noType ∧ (fs.dinode (fs'.icache i).inum).type = 0) ∨
    ∃ fs'', Xv6.ilock fs' i = .ok fs'' ∧ Held F fs l fs'' ∧ fs''.Locked i ∧
      (fs''.icache i).inum = (fs'.icache i).inum := by
  rw [← h.dinode]
  have he := h.cons.entry hi
  have href : ¬ (fs'.icache i).ref < 1 := Nat.not_lt.2 hi
  by_cases hv : (fs'.icache i).valid = true
  · refine .inr ⟨fs', ?_, h, ⟨hi, hv⟩, rfl⟩
    simp only [Xv6.ilock, if_neg href, if_pos hv]
  · by_cases ht : (fs'.dinode (fs'.icache i).inum).type = 0
    · refine .inl ⟨?_, ht⟩
      simp only [Xv6.ilock, if_neg href, if_neg hv, if_pos ht]
    · set ip : Inode := { fs'.icache i with
        valid := true, di := fs'.dinode (fs'.icache i).inum }
      have hok : Xv6.ilock fs' i = .ok (fs'.put i ip fs'.disk) := by
        simp only [Xv6.ilock, if_neg href, if_neg hv, if_neg ht]
        rfl
      refine .inr ⟨_, hok, h.put ip (h.cons.ilock hi hok) (fun _ => rfl) (h.ref i)
        fun _ => ⟨rfl, fun _ => rfl⟩, ⟨?_, ?_⟩, ?_⟩
      · rw [Fs.Ref, Fs.put_self]
        exact hi
      · rw [Fs.put_self]
      · rw [Fs.put_self]

/-- `iput` drops a reference. -/
theorem iput (h : Held F fs (i :: l) fs') (ha : fs.Anchored (fs'.icache i).inum) :
    ∃ fs'', Xv6.iput fs' i = .ok fs'' ∧ Held F fs l fs'' ∧
      ∀ k, ∃ r, fs''.icache k = { fs'.icache k with ref := r } := by
  have hi : fs'.Ref i := h.ref_of_mem List.mem_cons_self
  have he := h.cons.entry hi
  have href := h.ref i
  have hself : (i :: l).count i = l.count i + 1 := List.count_cons_self
  have hkeep : ¬ ((fs'.icache i).ref = 1 ∧ (fs'.icache i).valid = true ∧
      (fs'.icache i).di.nlink = 0) := by
    rintro ⟨h1, hv, h0⟩
    rcases ha with hlink | ⟨k, hk, hinum⟩
    · rw [← h.dinode, Fs.dinode, (he.valid hv).1] at hlink
      exact hlink h0
    · -- the inode is cached once, so entry `i` was in use before
      have hki : k = i := h.cons.once (h.ref_of_ref hk) hi (by rw [h.inum k hk, hinum])
      subst hki
      have : 0 < (fs.icache k).ref := hk
      omega
  set ip : Inode := { fs'.icache i with ref := (fs'.icache i).ref - 1 }
  have hok : Xv6.iput fs' i = .ok (fs'.put i ip fs'.disk) := by
    simp only [Xv6.iput, if_neg hkeep]
    rfl
  refine ⟨_, hok, h.put ip ?_ (fun hk => (List.count_cons_of_ne hk.symm).symm) ?_
    fun _ => ⟨rfl, id⟩, fun k => ?_⟩
  · exact h.cons.put_entry hi rfl fun _ => ⟨he.dev, he.range, he.valid⟩
  · show (fs'.icache i).ref - 1 = _
    omega
  · by_cases hk : k = i
    · exact ⟨(fs'.icache i).ref - 1, by rw [hk, Fs.put_self]⟩
    · exact ⟨_, Fs.put_ne _ _ _ hk⟩

end Held

end Xv6

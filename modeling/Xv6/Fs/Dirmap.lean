/-
  A directory is a map from names to inodes.

  The entries of a directory are the slots of a map (`Lib/Slots`); the key of
  an entry is its name, the first `DIRSIZ` bytes of it up to a NUL (`cname`).
  `Fs.lookup` is the map.  `dirlookup` is `Fs.lookup` followed by `iget`
  (`DirOk.dirlookup_eq`), and `dirlink` extends the map by one entry.
-/
import Xv6.Fs.ReadWrite
import Xv6.Lib.Slots

namespace Xv6

open Fallible Transition

/-! ## Names -/

/-- The first `n` bytes of a string, up to a NUL. -/
def cstr (n : ℕ) (s : List UInt8) : List UInt8 := (s.take n).takeWhile (· ≠ 0)

/-- The part of a name that counts in a directory. -/
def cname (s : List UInt8) : List UInt8 := cstr DIRSIZ s

theorem cstr_succ (n : ℕ) (s : List UInt8) :
    cstr (n + 1) s = if s.headD 0 = 0 then [] else s.headD 0 :: cstr n s.tail := by
  cases s with
  | nil => rfl
  | cons a s => by_cases ha : a = 0 <;> simp [cstr, ha]

theorem strncmp_eq_zero (n : ℕ) : ∀ s t : List UInt8, strncmp n s t = 0 ↔ cstr n s = cstr n t := by
  induction n with
  | zero => exact fun _ _ => iff_of_true rfl rfl
  | succ n ih =>
    intro s t
    rw [strncmp, cstr_succ, cstr_succ]
    generalize s.headD 0 = a, t.headD 0 = b
    have hsub : ((a.toNat : ℤ) - b.toNat = 0) ↔ a = b := by
      rw [← UInt8.toNat_inj]
      omega
    by_cases hab : a = b
    · subst hab
      by_cases ha : a = 0 <;> simp [ha, ih]
    · rw [if_neg fun h => hab h.2, hsub]
      refine iff_of_false hab ?_
      split_ifs with ha hb hb
      · exact fun _ => hab (ha.trans hb.symm)
      · rintro ⟨⟩
      · rintro ⟨⟩
      · exact fun h => hab (List.cons.inj h).1

theorem namecmp_eq_zero (s t : List UInt8) : namecmp s t = 0 ↔ cname s = cname t :=
  strncmp_eq_zero DIRSIZ s t

theorem cstr_strncpy (n : ℕ) : ∀ t : List UInt8, cstr n (strncpy n t) = cstr n t := by
  induction n with
  | zero => exact fun _ => rfl
  | succ n ih =>
    intro t
    rw [strncpy, cstr_succ n t]
    by_cases ht : t.headD 0 = 0
    · rw [if_neg (not_not.2 ht), if_pos ht]
      rfl
    · rw [if_pos ht, if_neg ht, cstr_succ, List.headD_cons, if_neg ht, List.tail_cons, ih]

/-- The name that `dirlink` stores. -/
theorem cname_strncpy (name : List UInt8) : cname (strncpy DIRSIZ name) = cname name :=
  cstr_strncpy DIRSIZ name

/-- `iget` fails when every entry of the cache is in use. -/
theorem iget_error {c : Icache} {dv : UInt32} {inum : ℕ} {e : FsPanic}
    (h : iget c dv inum = .error e) : e = .iget ∧ ∀ k, 0 < (c k).ref := by
  unfold iget at h
  split at h
  · cases h
  · split at h
    · cases h
    · rename_i hfull
      cases h
      refine ⟨rfl, fun k => Nat.pos_of_ne_zero fun h0 => ?_⟩
      exact List.find?_eq_none.1 hfull k (List.mem_finRange k) (decide_eq_true h0)

/-! ## Entries -/

/-- The entries in the bytes of a directory. -/
def dirents (bytes : List UInt8) : List Dirent :=
  (List.range (bytes.length / 16)).map fun k => .ofBytes ((bytes.drop (16 * k)).take 16)

/-- The name of an entry that is in use. -/
def Dirent.key (de : Dirent) : Option (List UInt8) :=
  if de.inum = 0 then none else some (cname de.name)

theorem Dirent.key_eq_some {de : Dirent} {k : List UInt8} :
    de.key = some k ↔ de.inum ≠ 0 ∧ cname de.name = k := by
  rw [key]
  split_ifs with h <;> simp [h]

theorem Dirent.ofBytes_toBytes (inum : UInt16) {name : List UInt8} (h : name.length = DIRSIZ) :
    Dirent.ofBytes (Dirent.toBytes ⟨inum, name⟩) = ⟨inum, name⟩ := by
  have hinum : inum.toUInt8.toUInt16 + 256 * (inum / 256).toUInt8.toUInt16 = inum := by
    rw [← UInt16.toNat_inj]
    have := inum.toNat_lt
    simp
    omega
  exact congrArg₂ Dirent.mk hinum (List.take_of_length_le h.le)

section
variable {bytes xs : List UInt8} {k n : ℕ}

theorem length_dirents (bytes : List UInt8) : (dirents bytes).length = bytes.length / 16 := by
  simp [dirents]

theorem getElem?_dirents (bytes : List UInt8) (k : ℕ) : (dirents bytes)[k]? =
    if k < bytes.length / 16 then some (.ofBytes ((bytes.drop (16 * k)).take 16)) else none := by
  rw [dirents, List.getElem?_map]
  split_ifs with h
  · rw [List.getElem?_range h]
    rfl
  · rw [List.getElem?_eq_none (by simpa using h)]
    rfl

/-- One entry is written. -/
theorem dirents_overwrite (h16 : 16 ∣ bytes.length) (hk : k ≤ bytes.length / 16)
    (hxs : xs.length = 16) :
    dirents (overwrite bytes (16 * k) xs) = Slots.put (dirents bytes) k (.ofBytes xs) := by
  have hlen : (overwrite bytes (16 * k) xs).length / 16 = max (bytes.length / 16) (k + 1) := by
    rw [length_overwrite, hxs]
    omega
  have htake : (bytes.take (16 * k)).length = 16 * k := List.length_take_of_le (by omega)
  refine List.ext_getElem? fun m => ?_
  rw [Slots.getElem?_put (by rwa [length_dirents]), getElem?_dirents, getElem?_dirents, hlen,
    overwrite]
  rcases lt_trichotomy m k with hm | rfl | hm
  · rw [if_neg hm.ne, if_pos (by omega), if_pos (by omega)]
    rw [List.drop_append_of_le_length (by omega), List.take_append_of_le_length (by simp; omega),
      List.drop_take, List.take_take, min_eq_left (by omega)]
  · rw [if_pos rfl, if_pos (by omega), List.drop_left' htake, List.take_left' hxs]
  · rw [if_neg hm.ne', List.drop_append, htake, List.drop_of_length_le (by omega), List.nil_append,
      List.drop_append, List.drop_of_length_le (by omega), List.nil_append, List.drop_drop]
    have hsum : 16 * k + xs.length + (16 * m - 16 * k - xs.length) = 16 * m := by omega
    rw [hsum]
    exact if_congr (by omega) rfl rfl

end

/-! ## The loops over a directory -/

/-- The entries of the directory with inode number `n`. -/
def Fs.dir (fs : Fs) (n : ℕ) : List Dirent :=
  dirents (contents (dinodeAt fs.sb fs.disk n) fs.disk)

/-- The entry for `name` in the directory `n`, and its number. -/
def Fs.lookup (fs : Fs) (n : ℕ) (name : List UInt8) : Option (Dirent × ℕ) :=
  Slots.find Dirent.key (fs.dir n) (cname name)

/-- What `dirlookup` returns when it finds the entry `r`. -/
def Fs.found (fs : Fs) : Option (Dirent × ℕ) → Except FsPanic (Option (Fin NINODE × ℕ) × Fs)
  | none => .ok (none, fs)
  | some (de, k) => do
    let (j, c) ← iget fs.icache ROOTDEV de.inum.toNat
    .ok (some (j, 16 * k), { fs with icache := c })

/-- Entry `i` of the cache is a locked directory. -/
structure DirOk (F : Prop) (fs : Fs) (i : Fin NINODE) : Prop where
  cons : Consistent F fs
  locked : fs.Locked i
  type : (fs.icache i).di.type = T_DIR
  whole : 16 ∣ (fs.file i).length

section
variable {F : Prop} {fs fs' : Fs} {i : Fin NINODE} (dev : Devsw)

namespace DirOk

theorem di_eq (h : DirOk F fs i) :
    dinodeAt fs.sb fs.disk (fs.icache i).inum = (fs.icache i).di :=
  ((h.cons.entry h.locked.1).valid h.locked.2).1

theorem file_eq (h : DirOk F fs i) : fs.file i = contents (fs.icache i).di fs.disk := by
  rw [Fs.file, h.di_eq]

theorem type_ne (h : DirOk F fs i) : (fs.icache i).di.type ≠ 0 := by
  rw [h.type]
  decide

theorem type_ne_dev (h : DirOk F fs i) : (fs.icache i).di.type ≠ T_DEV := by
  rw [h.type]
  decide

theorem length_eq (h : DirOk F fs i) : (fs.file i).length = (fs.icache i).di.size.toNat := by
  rw [h.file_eq, length_contents]

theorem length_dir (h : DirOk F fs i) :
    (fs.file i).length = 16 * (fs.dir (fs.icache i).inum).length := by
  rw [Fs.dir, length_dirents, ← Fs.file, Nat.mul_div_cancel' h.whole]

theorem length_le (h : DirOk F fs i) : (fs.file i).length ≤ MAXFILE * BSIZE := by
  rw [Fs.file, length_contents]
  refine h.cons.owned.size (h.cons.entry h.locked.1).range ?_
  rw [h.di_eq]
  exact h.type_ne

/-- `readi` of one entry. -/
theorem readDirent_eq (h : DirOk F fs i) {n : ℕ} (hn : n < (fs.file i).length / 16) :
    ∃ de, (fs.dir (fs.icache i).inum)[n]? = some de ∧
      readDirent fs.sb dev fs.disk (fs.icache i) (16 * n) = .ok (some de, fs.icache i, fs.disk) := by
  have hle := h.length_le
  have hlen := h.length_eq
  simp only [MAXFILE, NDIRECT, NINDIRECT, BSIZE] at hle
  have hoff : 16 * n ≤ (fs.icache i).di.size.toNat := by omega
  have hsum : 16 * n + 16 < 2 ^ 32 := by omega
  have hread := readi_contents dev h.cons.owned (h.cons.entry h.locked.1).range h.type_ne h.di_eq
    h.type_ne_dev hoff hsum
  rw [← h.file_eq] at hread
  refine ⟨_, (getElem?_dirents (fs.file i) n).trans (if_pos hn), ?_⟩
  rw [readDirent, hread]
  have h16 : (((fs.file i).drop (16 * n)).take 16).length = 16 := by
    rw [List.length_take, List.length_drop]
    omega
  simp only [bind, Except.bind, h16, if_true]

/-- **The loop over the entries** finds the first one that satisfies `p`. -/
theorem findDirent_eq (h : DirOk F fs i) (e : FsPanic) (p : Dirent → Bool) (fuel : ℕ) : ∀ n,
    n ≤ (fs.file i).length / 16 → (fs.file i).length / 16 < n + fuel →
    findDirent fs.sb dev e p fuel fs.disk (fs.icache i) (16 * n) =
      .ok (16 * (n + ((fs.dir (fs.icache i).inum).drop n).findIdx p),
        ((fs.dir (fs.icache i).inum).drop n).find? p, fs.icache i, fs.disk) := by
  have hlen := h.length_eq
  have hwhole := h.whole
  induction fuel with
  | zero =>
    intro n hn hfuel
    omega
  | succ fuel ih =>
    intro n hn hfuel
    rw [findDirent]
    by_cases hend : (fs.icache i).di.size.toNat ≤ 16 * n
    · have hdir := h.length_dir
      rw [if_pos hend, List.drop_of_length_le (by omega)]
      rfl
    · have hlt : n < (fs.file i).length / 16 := by omega
      obtain ⟨de, hde, hread⟩ := h.readDirent_eq dev hlt
      obtain ⟨hlt', rfl⟩ := List.getElem?_eq_some_iff.1 hde
      rw [if_neg hend, hread, List.drop_eq_getElem_cons hlt', List.find?_cons, List.findIdx_cons]
      have hnext := ih (n + 1) (by omega) (by omega)
      simp only [bind, Except.bind]
      cases hp : p (fs.dir (fs.icache i).inum)[n] with
      | true => rfl
      | false =>
        rw [show 16 * n + 16 = 16 * (n + 1) by ring]
        simp [hnext]
        omega

/-- **`dirlookup`** is the map of the directory, followed by `iget`. -/
theorem dirlookup_eq (h : DirOk F fs i) (name : List UInt8) :
    dirlookup dev fs i name = fs.found (fs.lookup (fs.icache i).inum name) := by
  have hfind := h.findDirent_eq dev .dirlookupRead
    (fun de => de.inum ≠ 0 ∧ namecmp name de.name = 0) ((fs.icache i).di.size.toNat / 16 + 1) 0
    (Nat.zero_le _) (by rw [h.length_eq]; omega)
  have hp : (fun de : Dirent => decide (de.inum ≠ 0 ∧ namecmp name de.name = 0)) =
      fun de => decide (de.key = some (cname name)) := by
    funext de
    refine decide_eq_decide.2 ?_
    rw [namecmp_eq_zero, Dirent.key_eq_some, eq_comm (a := cname name)]
  rw [hp] at hfind
  have hsame : { fs with icache := Function.update fs.icache i (fs.icache i) } = fs := by
    rw [Function.update_eq_self]
  simp only [dirlookup, hp, h.type, ne_eq, not_true_eq_false, if_false, bind, Except.bind]
  rw [Nat.mul_zero] at hfind
  simp only [hfind, hsame, Nat.zero_add, List.drop_zero]
  have hdev : (fs.icache i).dev = ROOTDEV := (h.cons.entry h.locked.1).dev
  have hlook : fs.lookup (fs.icache i).inum name =
      ((fs.dir (fs.icache i).inum).find? fun de => decide (de.key = some (cname name))).map fun de =>
        (de, (fs.dir (fs.icache i).inum).findIdx fun de => decide (de.key = some (cname name))) := rfl
  rw [hlook]
  cases (fs.dir (fs.icache i).inum).find? fun de => decide (de.key = some (cname name)) with
  | none => rfl
  | some de => simp only [Option.map, Fs.found, Function.update_eq_self, hdev, bind, Except.bind]

variable {name : List UInt8}

/-- `dirlink` of a name that is there. -/
theorem dirlink_found (h : DirOk F fs i) {r : Dirent × ℕ}
    (hr : fs.lookup (fs.icache i).inum name = some r) (inum : UInt16) :
    dirlink dev fs i name inum = .error .iget ∧ (∀ k, 0 < (fs.icache k).ref) ∨
    ∃ fs', dirlink dev fs i name inum = .ok (none, fs') ∧ fs'.sb = fs.sb ∧ fs'.disk = fs.disk ∧
      ∀ k, fs.Ref k → fs'.icache k = fs.icache k := by
  rw [dirlink, h.dirlookup_eq dev, hr]
  simp only [Fs.found, bind, Except.bind]
  cases hget : iget fs.icache ROOTDEV r.1.inum.toNat with
  | error e =>
    obtain ⟨rfl, hfull⟩ := iget_error hget
    exact .inl ⟨rfl, hfull⟩
  | ok p =>
    obtain ⟨j, c⟩ := p
    obtain ⟨fs', hput, -, hsb, hdisk, hc⟩ := h.cons.iget_iput hget
    simp only [hput]
    exact .inr ⟨fs', rfl, hsb, hdisk, hc⟩

/-- The slot that `dirlink` writes. -/
def freeSlot (l : List Dirent) : ℕ := l.findIdx fun de => de.inum = 0

/-- The slot that `dirlink` writes is free. -/
theorem freeSlot_free {l : List Dirent} {de : Dirent} (h : l[freeSlot l]? = some de) :
    de.inum = 0 := by
  rw [freeSlot, ← List.find?_eq_getElem?_findIdx] at h
  exact of_decide_eq_true (List.find?_some h :)

theorem freeSlot_le (l : List Dirent) : freeSlot l ≤ l.length := List.findIdx_le_length

theorem freeSlot_lt {l : List Dirent} : freeSlot l < l.length ↔ ∃ de ∈ l, de.inum = 0 := by
  rw [freeSlot, List.findIdx_lt_length]
  simp only [decide_eq_true_eq]

/-- `dirlink` of a new name. -/
theorem dirlink_new (h : DirOk F fs i) (hr : fs.lookup (fs.icache i).inum name = none)
    (inum : UInt16) :
    dirlink dev fs i name inum = (do
      let (n, dp, d) ← writei fs.sb dev fs.disk (fs.icache i)
        (Dirent.toBytes ⟨inum, strncpy DIRSIZ name⟩) (16 * freeSlot (fs.dir (fs.icache i).inum))
      if n = some 16 then .ok (some (), fs.put i dp d) else .error .dirlink) := by
  have hfind := h.findDirent_eq dev .dirlinkRead (fun de => de.inum = 0)
    ((fs.icache i).di.size.toNat / 16 + 1) 0 (Nat.zero_le _) (by rw [h.length_eq]; omega)
  rw [Nat.mul_zero] at hfind
  rw [dirlink, h.dirlookup_eq dev, hr]
  simp only [Fs.found, bind, Except.bind, hfind, Nat.zero_add, List.drop_zero]
  rfl

/-- An entry lies in one block. -/
theorem entry_in_block (k : ℕ) : 16 * k % BSIZE + 16 ≤ BSIZE := by
  simp only [BSIZE]
  omega

/-- An entry that is there is written without allocating a block. -/
theorem writei_there (h : DirOk F fs i) {k : ℕ} (hk : k < (fs.file i).length / 16)
    {xs : List UInt8} (hxs : xs.length = 16) :
    writei fs.sb dev fs.disk (fs.icache i) xs (16 * k) ≠ .error .outOfBlocks := by
  have hlen := h.length_eq
  have hle := h.length_le
  have hdi := h.di_eq
  have hblock := entry_in_block k
  have hlt : 16 * k < (dinodeAt fs.sb fs.disk (fs.icache i).inum).size.toNat := by
    rw [hdi]
    omega
  obtain ⟨hbn, hslot⟩ := h.cons.owned.slot_ne_zero (h.cons.entry h.locked.1).range
    (by rw [hdi]; exact h.type_ne) hlt
  rw [hdi] at hslot
  have hmap : bmap fs.sb fs.disk (fs.icache i).di (16 * k / BSIZE) = _ := bmap_found hbn hslot
  have hxs0 : xs ≠ [] := by
    rintro rfl
    cases hxs
  have hmin : min xs.length (BSIZE - 16 * k % BSIZE) = 16 := by omega
  have hrest : xs.drop 16 = [] := List.drop_of_length_le hxs.le
  have hloop : ∃ d, writeiLoop fs.sb 16 fs.disk (fs.icache i).di (16 * k) xs =
      .ok ((fs.icache i).di, d) := by
    rw [writeiLoop, if_neg hxs0, hmap]
    simp only [bind, Except.bind, hmin, hrest, writeiLoop, if_true]
    exact ⟨_, rfl⟩
  obtain ⟨d, hloop⟩ := hloop
  simp only [MAXFILE, NDIRECT, NINDIRECT, BSIZE] at hle
  simp only [writei, hxs]
  rw [if_neg h.type_ne_dev, if_neg (by omega), if_neg (by simp only [MAXFILE, NDIRECT, NINDIRECT, BSIZE]; omega),
    hloop]
  simp only [bind, Except.bind]
  rw [if_neg (by omega)]
  rintro ⟨⟩

/-- One entry of a directory is written. -/
theorem write (h : DirOk F fs i) {k : ℕ} (hk : k ≤ (fs.file i).length / 16)
    (hmax : 16 * k + 16 ≤ MAXFILE * BSIZE) {xs : List UInt8} (hxs : xs.length = 16) :
    (2 ≤ freeBlocks fs.sb fs.disk →
      writei fs.sb dev fs.disk (fs.icache i) xs (16 * k) ≠ .error .outOfBlocks) ∧
    (writei fs.sb dev fs.disk (fs.icache i) xs (16 * k) ≠ .error .outOfBlocks →
      ∃ ip d, writei fs.sb dev fs.disk (fs.icache i) xs (16 * k) = .ok (some 16, ip, d) ∧
        ip.inum = (fs.icache i).inum ∧ DirOk F (fs.put i ip d) i ∧
        KeepsFiles fs.sb fs.disk (fs.icache i).inum d ∧
        (fs.put i ip d).dir (fs.icache i).inum =
          Slots.put (fs.dir (fs.icache i).inum) k (.ofBytes xs)) := by
  have hlen := h.length_eq
  have hwhole := h.whole
  have hblock := entry_in_block k
  have hle : 16 * k ≤ (fs.icache i).di.size.toNat := by omega
  have hmax' : 16 * k + xs.length ≤ MAXFILE * BSIZE := by rw [hxs]; exact hmax
  obtain ⟨henough, hdone⟩ := writei_rewritten h.cons.owned (h.cons.entry h.locked.1).range
    h.type_ne h.di_eq h.type_ne_dev dev hle hmax'
  constructor
  · intro hfree
    refine henough (le_trans ?_ hfree)
    simp only [BSIZE] at hblock
    rw [pieces, hxs, if_neg (by decide)]
    simp only [BSIZE]
    omega
  · intro hout
    obtain ⟨ip, d, hok, hrw⟩ := hdone hout
    have hinum : ip.inum = (fs.icache i).inum := by rw [hrw.kept.eq]
    have hfile : (fs.put i ip d).file i = overwrite (fs.file i) (16 * k) xs := by
      rw [Fs.file, Fs.put_self, hinum, Fs.put_sb, Fs.put_disk, hrw.kept.self, hrw.bytes, h.file_eq]
    have hdir : (fs.put i ip d).dir (fs.icache i).inum =
        Slots.put (fs.dir (fs.icache i).inum) k (.ofBytes xs) := by
      have heq := congrArg dirents hfile
      rw [dirents_overwrite hwhole hk hxs, Fs.file, Fs.put_self, hinum] at heq
      exact heq
    refine ⟨ip, d, by rw [hok, hxs], hinum, ⟨h.cons.put_kept h.locked.1 hrw.kept, ?_, ?_, ?_⟩,
      hrw.others, hdir⟩
    · rw [Fs.Locked, Fs.Ref, Fs.put_self, hrw.kept.eq]
      exact h.locked
    · rw [Fs.put_self, hrw.fields]
      exact h.type
    · rw [hfile, length_overwrite, hxs]
      omega

/-- **`dirlink`** of a new name: blocks run out, the directory is full, or a free slot gets the
new entry. -/
theorem dirlink_cases (h : DirOk F fs i) (hr : fs.lookup (fs.icache i).inum name = none)
    (inum : UInt16) :
    (dirlink dev fs i name inum = .error .outOfBlocks ∧ freeBlocks fs.sb fs.disk < 2) ∨
    (dirlink dev fs i name inum = .error .dirlink ∧ MAXFILE * BSIZE ≤ (fs.file i).length) ∨
    ∃ ip d, dirlink dev fs i name inum = .ok (some (), fs.put i ip d) ∧
      ip.inum = (fs.icache i).inum ∧ DirOk F (fs.put i ip d) i ∧
      KeepsFiles fs.sb fs.disk (fs.icache i).inum d ∧
      (fs.put i ip d).dir (fs.icache i).inum = Slots.put (fs.dir (fs.icache i).inum)
        (freeSlot (fs.dir (fs.icache i).inum)) ⟨inum, strncpy DIRSIZ name⟩ := by
  have hnew := h.dirlink_new dev hr inum
  have hlen := h.length_dir
  have hslot := freeSlot_le (fs.dir (fs.icache i).inum)
  have hk : freeSlot (fs.dir (fs.icache i).inum) ≤ (fs.file i).length / 16 := by omega
  have hxs := Dirent.length_toBytes inum name
  have hxs' := Dirent.ofBytes_toBytes inum (length_strncpy DIRSIZ name)
  set k := freeSlot (fs.dir (fs.icache i).inum)
  set xs := Dirent.toBytes ⟨inum, strncpy DIRSIZ name⟩
  by_cases hmax : 16 * k + 16 ≤ MAXFILE * BSIZE
  · obtain ⟨henough, hdone⟩ := h.write dev hk hmax hxs
    by_cases hout : writei fs.sb dev fs.disk (fs.icache i) xs (16 * k) = .error .outOfBlocks
    · refine .inl ⟨by rw [hnew, hout]; rfl, ?_⟩
      by_contra hfree
      exact henough (Nat.not_lt.1 hfree) hout
    · obtain ⟨ip, d, hok, hinum, hdir, hkeep, hput⟩ := hdone hout
      rw [hxs'] at hput
      exact .inr (.inr ⟨ip, d, by rw [hnew, hok]; rfl, hinum, hdir, hkeep, hput⟩)
  · have hle := h.length_le
    have hsize := h.length_eq
    refine .inr (.inl ⟨?_, ?_⟩)
    · have hfail : writei fs.sb dev fs.disk (fs.icache i) xs (16 * k) =
          .ok (none, fs.icache i, fs.disk) := by
        simp only [MAXFILE, NDIRECT, NINDIRECT, BSIZE] at hle hmax
        simp only [writei, hxs]
        rw [if_neg h.type_ne_dev, if_neg (by omega),
          if_pos (by simp only [MAXFILE, NDIRECT, NINDIRECT, BSIZE]; omega)]
      rw [hnew, hfail]
      rfl
    · simp only [MAXFILE, NDIRECT, NINDIRECT, BSIZE] at hmax ⊢
      omega

end DirOk

/-- What `dirlink` does to the directory when the name is new. -/
structure Linked (F : Prop) (dev : Devsw) (fs : Fs) (i : Fin NINODE) (name : List UInt8)
    (inum : UInt16) (fs' : Fs) : Prop where
  same : (fs'.icache i).inum = (fs.icache i).inum
  dir : DirOk F fs' i
  distinct : Slots.Distinct Dirent.key (fs'.dir (fs.icache i).inum)
  size : (fs'.file i).length =
    (fs.file i).length + if ∃ de ∈ fs.dir (fs.icache i).inum, de.inum = 0 then 0 else 16
  lookup : ∀ name', dirlookup dev fs' i name' = fs'.found (fs'.lookup (fs.icache i).inum name')
  others : ∀ name', cname name' ≠ cname name →
    fs'.lookup (fs.icache i).inum name' = fs.lookup (fs.icache i).inum name'
  /-- The new entry is found; when it is zeroed, the map is as before. -/
  entry : ∃ de k, fs'.lookup (fs.icache i).inum name = some (de, k) ∧ de.inum = inum ∧
    ∃ ip d, writei fs'.sb dev fs'.disk (fs'.icache i) (List.replicate 16 0) (16 * k) =
        .ok (some 16, ip, d) ∧
      (∀ name', dirlookup dev (fs'.put i ip d) i name' =
        (fs'.put i ip d).found ((fs'.put i ip d).lookup (fs.icache i).inum name')) ∧
      ∀ name', (fs'.put i ip d).lookup (fs.icache i).inum name' =
        fs.lookup (fs.icache i).inum name'

namespace DirOk

/-- An entry for `name` is in use. -/
theorem lookup_none (name : List UInt8) : fs.lookup (fs.icache i).inum name = none ↔
    ¬ ∃ de ∈ fs.dir (fs.icache i).inum, de.inum ≠ 0 ∧ cname de.name = cname name := by
  rw [Fs.lookup, Slots.find_none]
  simp only [ne_eq, Dirent.key_eq_some, not_exists, not_and]

/-- The new entry in slot `k` is zeroed, as `sys_unlink` does it. -/
theorem zeroed (h' : DirOk F fs' i) {n : ℕ} (hsame : (fs'.icache i).inum = n)
    (hdist : Slots.Distinct Dirent.key (fs'.dir n)) {k : ℕ} {new : Dirent}
    (hdir : fs'.dir n = Slots.put (fs.dir n) k new) (hd : Slots.Distinct Dirent.key (fs.dir n))
    {key : List UInt8} (hkey : new.key = some key)
    (hfree : ∀ {de : Dirent} {key}, (fs.dir n)[k]? = some de → de.key ≠ some key)
    (hle : k ≤ (fs.dir n).length) :
    ∃ ip d, writei fs'.sb dev fs'.disk (fs'.icache i) (List.replicate 16 0) (16 * k) =
        .ok (some 16, ip, d) ∧
      (∀ name', dirlookup dev (fs'.put i ip d) i name' =
        (fs'.put i ip d).found ((fs'.put i ip d).lookup n name')) ∧
      ∀ name', (fs'.put i ip d).lookup n name' = fs.lookup n name' := by
  subst hsame
  set n := (fs'.icache i).inum
  have hlen : (fs'.file i).length = 16 * (fs'.dir n).length := h'.length_dir
  have hmax := h'.length_le
  have hlt : k < (fs'.dir n).length := by
    rw [hdir, Slots.length_put hle]
    omega
  have hz : (List.replicate 16 (0 : UInt8)).length = 16 := rfl
  have hk : k < (fs'.file i).length / 16 := by omega
  have hk' : 16 * k + 16 ≤ MAXFILE * BSIZE := by omega
  obtain ⟨-, hdone⟩ := h'.write dev hk.le hk' hz
  obtain ⟨ip, d, hok, hinum, h'', -, hdir''⟩ := hdone (h'.writei_there dev hk hz)
  set zero : Dirent := .ofBytes (List.replicate 16 0)
  have hzero : zero.key = none := rfl
  have hdist'' : Slots.Distinct Dirent.key ((fs'.put i ip d).dir n) := by
    rw [hdir'']
    refine Slots.Distinct.put hdist hlt.le (fun hm hkm => ?_) (.inr hzero) (k := key)
    refine hdist hm ?_ hkm hkey
    rw [hdir, Slots.getElem?_put hle, if_pos rfl]
  refine ⟨ip, d, hok, fun name' => ?_, fun name' => ?_⟩
  · rw [h''.dirlookup_eq dev, Fs.put_self, hinum]
  · refine Slots.Distinct.find_congr hd hdist'' fun {m de} hde => ?_
    rw [hdir'', Slots.getElem?_put hlt.le, hdir, Slots.getElem?_put hle]
    split_ifs with hm
    · subst hm
      refine iff_of_false (fun heq => ?_) fun hm => hfree hm hde
      cases heq
      rw [hzero] at hde
      cases hde
    · rfl

/-- A free slot gets the new entry. -/
theorem linked (h : DirOk F fs i) (hd : Slots.Distinct Dirent.key (fs.dir (fs.icache i).inum))
    {name : List UInt8} {inum : UInt16} (h0 : inum ≠ 0)
    (hname : fs.lookup (fs.icache i).inum name = none) {ip : Inode} {d : Disk}
    (hinum : ip.inum = (fs.icache i).inum) (h' : DirOk F (fs.put i ip d) i)
    (hdir : (fs.put i ip d).dir (fs.icache i).inum = Slots.put (fs.dir (fs.icache i).inum)
      (freeSlot (fs.dir (fs.icache i).inum)) ⟨inum, strncpy DIRSIZ name⟩) :
    Linked F dev fs i name inum (fs.put i ip d) := by
  set n := (fs.icache i).inum
  set k := freeSlot (fs.dir n)
  set new : Dirent := ⟨inum, strncpy DIRSIZ name⟩
  have hle : k ≤ (fs.dir n).length := freeSlot_le _
  have hsame : ((fs.put i ip d).icache i).inum = n := by rw [Fs.put_self, hinum]
  have hkey : new.key = some (cname name) := Dirent.key_eq_some.2 ⟨h0, cname_strncpy name⟩
  have hfree : ∀ {de : Dirent} {key}, (fs.dir n)[k]? = some de → de.key ≠ some key := by
    intro de key hde hsome
    exact (Dirent.key_eq_some.1 hsome).1 (freeSlot_free hde)
  have hdist : Slots.Distinct Dirent.key ((fs.put i ip d).dir n) := by
    rw [hdir]
    refine Slots.Distinct.put hd hle (fun hm hkm => ?_) (.inl hkey)
    exact absurd hkm (Slots.find_none.1 hname _ (List.mem_of_getElem? hm))
  have hlen : ((fs.put i ip d).file i).length = 16 * max (fs.dir n).length (k + 1) := by
    rw [h'.length_dir, hsame, hdir, Slots.length_put hle]
  refine ⟨hsame, h', hdist, ?_, fun name' => ?_, fun name' hne => ?_, new, k, ?_, rfl, ?_⟩
  · have hlen₀ : (fs.file i).length = 16 * (fs.dir n).length := h.length_dir
    have hlt := freeSlot_lt (l := fs.dir n)
    rw [hlen, hlen₀]
    split_ifs with hex
    · have := hlt.2 hex
      omega
    · have := mt hlt.1 hex
      omega
  · rw [h'.dirlookup_eq dev, hsame]
  · have hne' : new.key ≠ some (cname name') := by
      rw [hkey]
      exact fun heq => hne (Option.some.inj heq).symm
    rw [Fs.lookup, hdir]
    exact Slots.Distinct.find_put_ne hd (by rwa [hdir] at hdist) hle hne' hfree
  · rw [Fs.lookup, hdist.find, hdir, Slots.getElem?_put hle, if_pos rfl]
    exact ⟨rfl, hkey⟩
  · exact h'.zeroed dev hsame hdist hdir hd hkey hfree hle

end DirOk

/-- **A directory is a map.**  `dirlink` refuses a name that is there; otherwise it adds the name
to the map and changes nothing else in it, and zeroing its entry takes the name out again. -/
theorem dirlink_map (h : DirOk F fs i) (hd : Slots.Distinct Dirent.key (fs.dir (fs.icache i).inum))
    (name : List UInt8) {inum : UInt16} (h0 : inum ≠ 0) :
    ((∃ k, (fs.icache k).ref = 0) → dirlink dev fs i name inum ≠ .error .iget) ∧
    (dirlink dev fs i name inum ≠ .error .iget →
      ((∃ fs', dirlink dev fs i name inum = .ok (none, fs') ∧ fs'.file i = fs.file i) ↔
        ∃ de ∈ fs.dir (fs.icache i).inum, de.inum ≠ 0 ∧ cname de.name = cname name)) ∧
    ((¬ ∃ de ∈ fs.dir (fs.icache i).inum, de.inum ≠ 0 ∧ cname de.name = cname name) →
      (fs.file i).length < MAXFILE * BSIZE →
      (2 ≤ freeBlocks fs.sb fs.disk → dirlink dev fs i name inum ≠ .error .outOfBlocks) ∧
      (dirlink dev fs i name inum ≠ .error .outOfBlocks →
        ∃ fs', dirlink dev fs i name inum = .ok (some (), fs') ∧
          Linked F dev fs i name inum fs')) := by
  by_cases hex : ∃ de ∈ fs.dir (fs.icache i).inum, de.inum ≠ 0 ∧ cname de.name = cname name
  · have hsome : fs.lookup (fs.icache i).inum name ≠ none :=
      fun hnone => (DirOk.lookup_none name).1 hnone hex
    obtain ⟨r, hr⟩ := Option.ne_none_iff_exists'.1 hsome
    refine ⟨fun hfree herr => ?_, fun herr => ⟨fun _ => hex, fun _ => ?_⟩, fun hno => absurd hex hno⟩
    · rcases h.dirlink_found dev hr inum with ⟨-, hfull⟩ | ⟨fs', hok, -⟩
      · obtain ⟨k, hk⟩ := hfree
        exact absurd hk (hfull k).ne'
      · rw [hok] at herr
        cases herr
    · rcases h.dirlink_found dev hr inum with ⟨hbad, -⟩ | ⟨fs', hok, hsb, hdisk, hc⟩
      · exact absurd hbad herr
      · refine ⟨fs', hok, ?_⟩
        rw [Fs.file, Fs.file, hc i h.locked.1, hsb, hdisk]
  · have hnone : fs.lookup (fs.icache i).inum name = none := (DirOk.lookup_none name).2 hex
    rcases h.dirlink_cases dev hnone inum with ⟨hok, hlt⟩ | ⟨hok, hfull⟩ |
      ⟨ip, d, hok, hinum, h', -, hdir⟩
    all_goals
      rw [hok]
      refine ⟨fun _ => (by rintro ⟨⟩), fun _ => iff_of_false (by simp) hex, fun _ hsize => ?_⟩
    · exact ⟨fun hfree => absurd hlt hfree.not_gt, absurd rfl⟩
    · exact absurd hfull hsize.not_ge
    · exact ⟨fun _ => (by rintro ⟨⟩), fun _ => ⟨_, rfl, h.linked dev hd h0 hnone hinum h' hdir⟩⟩

end

/-- A directory on the small disk with a free entry between two names. -/
def mixedDir : Reached (Reach (· = smallFs) (FsStep noDev)) fun fs =>
    0 < (fs.icache 0).ref ∧ (fs.icache 0).valid = true ∧ (fs.icache 0).di.type = T_DIR ∧
      (fs.icache 0).di.size = 48 ∧ 2 ≤ freeBlocks fs.sb fs.disk ∧
      (fs.dir (fs.icache 0).inum).map Dirent.key = [some [97], none, some [99]] :=
  .ofRun _ fsStep_of_exec rfl [.ialloc T_DIR, .ilock 0, .dirlink 0 [97] 1, .dirlink 0 [98] 1,
    .dirlink 0 [99] 1, .writei 0 (List.replicate 16 0) 16] (by decide +kernel)

theorem dirlink_map_mixed : ∃ F fs, DirOk F fs 0 ∧
    (fs.dir (fs.icache 0).inum).map Dirent.key = [some [97], none, some [99]] ∧
    ∃ fs', dirlink noDev fs 0 [120] 5 = .ok (some (), fs') ∧ Linked F noDev fs 0 [120] 5 fs' := by
  obtain ⟨fs, hr, hp⟩ := mixedDir
  obtain ⟨href, hvalid, htype, hsize, hfree, hkeys⟩ := of_decide_eq_true hp
  have hc := smallFs_consistent.reach hr
  have hlen : (fs.file 0).length = 48 := by
    rw [Fs.file, length_contents, ((hc.entry href).valid hvalid).1, hsize]
    rfl
  have h : DirOk True fs 0 := ⟨hc, ⟨href, hvalid⟩, htype, by rw [hlen]; decide⟩
  have hget : ∀ {j : ℕ} {de k}, (fs.dir (fs.icache 0).inum)[j]? = some de → Dirent.key de = some k →
      ([some [97], none, some [99]] : List (Option (List UInt8)))[j]? = some (some k) := by
    intro j de k hj hk
    rw [← hkeys, List.getElem?_map, hj, Option.map_some, hk]
  have hd : Slots.Distinct Dirent.key (fs.dir (fs.icache 0).inum) := by
    intro m n a b k hm hn ha hb
    have h1 := hget hm ha
    have heq := h1.trans (hget hn hb).symm
    rcases m with _ | _ | _ | m <;> simp at h1 <;> rcases n with _ | _ | _ | n <;> simp at heq ⊢
  obtain ⟨-, -, hlink⟩ := dirlink_map noDev h hd [120] (show (5 : UInt16) ≠ 0 by decide)
  obtain ⟨henough, hdone⟩ := hlink (by
    rintro ⟨de, hde, h0, hname⟩
    obtain ⟨j, hj⟩ := List.mem_iff_getElem?.1 hde
    have hkey := hget hj (Dirent.key_eq_some.2 ⟨h0, hname.trans (show _ = [120] by decide)⟩)
    rcases j with _ | _ | _ | j <;> simp at hkey) (by rw [hlen]; decide)
  obtain ⟨fs', hok, hlinked⟩ := hdone (henough hfree)
  exact ⟨True, fs, h, hkeys, fs', hok, hlinked⟩

end Xv6

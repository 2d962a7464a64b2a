/-
  Path names (`fs.c`).

  `skipelem` and `namex` are those of `fs.c`.  A path is a string of bytes that
  reads as NUL past its end; `name` is the caller's buffer of `DIRSIZ` bytes.
  The specification is in terms of the elements of a path (`segments`) and of
  the directories on disk (`Fs.walk`): `namei` returns the inode at the end of
  the walk, `nameiparent` the one before it, and the references that they take
  on the way are all given back.
-/
import Mathlib.Data.List.TakeWhile
import Mathlib.Tactic.IntervalCases
import Xv6.Fs.Held

namespace Xv6

open Fallible Transition

/-- Root i-number. -/
abbrev ROOTINO : ℕ := 1

/-- The character `/`. -/
abbrev slash : UInt8 := 47

/-! ## `fs.c` -/

/-- Copy the next path element from `path` into `name`; the path after it and the name. -/
def skipelem (path name : List UInt8) : Option (List UInt8 × List UInt8) :=
  let s := path.dropWhile (· = slash)
  if s.headD 0 = 0 then none
  else
    let path := s.dropWhile fun c => c ≠ slash ∧ c ≠ 0
    let len := s.length - path.length
    let name := if DIRSIZ ≤ len then s.take DIRSIZ else s.take len ++ 0 :: name.drop (len + 1)
    some (path.dropWhile (· = slash), name)

/-- The loop of `namex`, at most `fuel` rounds of it; every round takes an element off the path. -/
def namexLoop (dev : Devsw) (nameiparent : Bool) :
    ℕ → Fs → Fin NINODE → List UInt8 → List UInt8 →
    Except FsPanic (Option (Fin NINODE) × List UInt8 × Fs)
  | 0, fs, _, _, name => .ok (none, name, fs)
  | fuel + 1, fs, ip, path, name =>
    match skipelem path name with
    | none =>
      if nameiparent then do
        let fs ← iput fs ip
        .ok (none, name, fs)
      else .ok (some ip, name, fs)
    | some (path, name) => do
      let fs ← ilock fs ip
      if (fs.icache ip).di.type ≠ T_DIR then
        let fs ← iput fs ip
        .ok (none, name, fs)
      else if nameiparent ∧ path.headD 0 = 0 then
        -- stop one level early
        .ok (some ip, name, fs)
      else
        let (next, fs) ← dirlookup dev fs ip name
        match next with
        | none =>
          let fs ← iput fs ip
          .ok (none, name, fs)
        | some (next, _) =>
          let fs ← iput fs ip
          namexLoop dev nameiparent fuel fs next path name

/-- Look up and return the inode for a path name. -/
def namex (dev : Devsw) (fs : Fs) (cwd : Fin NINODE) (path : List UInt8) (nameiparent : Bool)
    (name : List UInt8) : Except FsPanic (Option (Fin NINODE) × List UInt8 × Fs) := do
  let (ip, c) ← if path.headD 0 = slash then iget fs.icache ROOTDEV ROOTINO
    else .ok (cwd, idup fs.icache cwd)
  namexLoop dev nameiparent (path.length + 1) { fs with icache := c } ip path name

def namei (dev : Devsw) (fs : Fs) (cwd : Fin NINODE) (path : List UInt8) :
    Except FsPanic (Option (Fin NINODE) × Fs) := do
  -- the buffer is not initialised; what is in it does not matter
  let (ip, _, fs) ← namex dev fs cwd path false []
  .ok (ip, fs)

def nameiparent (dev : Devsw) (fs : Fs) (cwd : Fin NINODE) (path name : List UInt8) :
    Except FsPanic (Option (Fin NINODE) × List UInt8 × Fs) :=
  namex dev fs cwd path true name

/-! ## The elements of a path -/

/-- The maximal pieces of a path without a slash. -/
def elems (path : List UInt8) : List (List UInt8) :=
  ((path.takeWhile (· ≠ 0)).splitOnP (· = slash)).filter (· ≠ [])

/-- The elements of a path, each cut to its first `DIRSIZ` bytes. -/
def segments (path : List UInt8) : List (List UInt8) := (elems path).map (List.take DIRSIZ)

theorem elems_nul {path : List UInt8} (h : path.headD 0 = 0) : elems path = [] := by
  cases path with
  | nil => rfl
  | cons c path =>
    obtain rfl : c = 0 := h
    rfl

theorem elems_slash (path : List UInt8) : elems (slash :: path) = elems path := by
  rw [elems, List.takeWhile_cons_of_pos (by decide), List.splitOnP_cons_eq_if_modifyHead, if_pos (by rfl)]
  rfl

theorem elems_dropWhile (path : List UInt8) : elems (path.dropWhile (· = slash)) = elems path := by
  induction path with
  | nil => rfl
  | cons c path ih =>
    by_cases hc : c = slash
    · rw [List.dropWhile_cons_of_pos (by simpa using hc), ih, hc, elems_slash]
    · rw [List.dropWhile_cons_of_neg (by simpa using hc)]

/-- The first element of a path. -/
theorem elems_append {e rest : List UInt8} (he : e ≠ []) (hc : ∀ c ∈ e, c ≠ slash ∧ c ≠ 0)
    (hrest : rest.headD 0 = 0 ∨ rest.headD 0 = slash) : elems (e ++ rest) = e :: elems rest := by
  have hnul : (e ++ rest).takeWhile (· ≠ 0) = e ++ rest.takeWhile (· ≠ 0) :=
    List.takeWhile_append_of_pos fun c h => decide_eq_true (hc c h).2
  have hone : e.splitOnP (· = slash) = [e] :=
    List.splitOnP_eq_singleton fun c h => decide_eq_false (hc c h).1
  have hkeep : [e].filter (· ≠ []) = [e] := by simp [he]
  rcases hrest with h0 | hs
  · have hnil : rest.takeWhile (· ≠ 0) = [] := by
      cases rest with
      | nil => rfl
      | cons c rest =>
        obtain rfl : c = 0 := h0
        rfl
    rw [elems_nul h0, elems, hnul, hnil, List.append_nil, hone, hkeep]
  · cases rest with
    | nil => exact absurd hs (by decide)
    | cons c rest =>
      obtain rfl : c = slash := hs
      rw [elems_slash, elems, hnul, List.takeWhile_cons_of_pos (by decide),
        List.splitOnP_append_cons _ _ (by rfl), hone, List.filter_append, hkeep]
      rfl

theorem headD_dropWhile (p : UInt8 → Bool) (s : List UInt8) :
    (s.dropWhile p).headD 0 = 0 ∨ p ((s.dropWhile p).headD 0) = false := by
  induction s with
  | nil => exact .inl rfl
  | cons c s ih =>
    cases hc : p c with
    | true => rwa [List.dropWhile_cons_of_pos hc]
    | false =>
      rw [List.dropWhile_cons_of_neg (by rw [hc]; rintro ⟨⟩)]
      exact .inr hc

/-- The element `e` as `skipelem` copies it. -/
theorem cname_elem {e : List UInt8} (h0 : ∀ c ∈ e, c ≠ 0) (rest name : List UInt8) :
    cname (if DIRSIZ ≤ e.length then (e ++ rest).take DIRSIZ
      else (e ++ rest).take e.length ++ 0 :: name.drop (e.length + 1)) = e.take DIRSIZ := by
  have hall : ∀ c ∈ e.take DIRSIZ, decide (c ≠ 0) = true := fun c hc =>
    decide_eq_true (h0 c (List.mem_of_mem_take hc))
  split_ifs with hlen
  · rw [List.take_append_of_le_length hlen, cname, cstr, List.take_take, min_self]
    exact List.takeWhile_eq_self_iff.2 hall
  · have hle : e.length ≤ DIRSIZ := (Nat.not_le.1 hlen).le
    rw [List.take_left, List.take_of_length_le hle] at *
    rw [cname, cstr, List.take_append, List.take_of_length_le hle,
      List.takeWhile_append_of_pos hall]
    obtain ⟨m, hm⟩ := Nat.exists_eq_add_of_lt (Nat.not_le.1 hlen)
    rw [hm, show e.length + m + 1 - e.length = m + 1 by omega]
    simp

/-- The characters of an element. -/
def inElem (c : UInt8) : Bool := c ≠ slash ∧ c ≠ 0

theorem of_mem_elem {s : List UInt8} {c : UInt8} (h : c ∈ s.takeWhile inElem) :
    c ≠ slash ∧ c ≠ 0 := of_decide_eq_true (List.mem_takeWhile_imp h :)

/-- A path that starts with an element. -/
theorem elems_first {s : List UInt8} (h0 : s.headD 0 ≠ 0) (hs : s.headD 0 ≠ slash) :
    s.takeWhile inElem ≠ [] ∧
      elems s = s.takeWhile inElem :: elems (s.dropWhile inElem) := by
  have hne : s.takeWhile inElem ≠ [] := by
    cases s with
    | nil => exact absurd rfl h0
    | cons c s =>
      have hc : inElem c = true := decide_eq_true ⟨hs, h0⟩
      rw [List.takeWhile_cons_of_pos hc]
      rintro ⟨⟩
  have hrest : (s.dropWhile inElem).headD 0 = 0 ∨ (s.dropWhile inElem).headD 0 = slash := by
    rcases headD_dropWhile inElem s with h | h
    · exact .inl h
    · have := of_decide_eq_false h
      by_cases hslash : (s.dropWhile inElem).headD 0 = slash
      · exact .inr hslash
      · exact .inl (not_not.1 fun hnul => this ⟨hslash, hnul⟩)
  refine ⟨hne, ?_⟩
  rw [← elems_append hne (fun _ => of_mem_elem) hrest,
    List.takeWhile_append_dropWhile]

/-- What `skipelem` does: there is no element left, or it takes off the first. -/
theorem skipelem_cases (path name : List UInt8) :
    (skipelem path name = none ∧ segments path = []) ∨
    ∃ path' name', skipelem path name = some (path', name') ∧
      segments path = cname name' :: segments path' ∧
      (path'.headD 0 = 0 ↔ segments path' = []) ∧ path'.length < path.length := by
  have hskip : ∀ (s : List UInt8), (s.dropWhile (· = slash)).headD 0 ≠ 0 →
      (s.dropWhile (· = slash)).headD 0 ≠ slash := fun s h0 =>
    (headD_dropWhile (· = slash) s).elim (absurd · h0) of_decide_eq_false
  set s := path.dropWhile (· = slash) with hs
  have helems : elems path = elems s := (elems_dropWhile path).symm
  have hle : s.length ≤ path.length := (List.dropWhile_sublist _).length_le
  by_cases h0 : s.headD 0 = 0
  · left
    refine ⟨?_, by rw [segments, helems, elems_nul h0]; rfl⟩
    simp only [skipelem, ← hs, if_pos h0]
  · right
    obtain ⟨hne, hfirst⟩ := elems_first h0 (hskip path h0)
    set e := s.takeWhile inElem
    set rest := s.dropWhile inElem with hrest
    have happ : e ++ rest = s := List.takeWhile_append_dropWhile
    have hsum : e.length + rest.length = s.length := by rw [← happ, List.length_append]
    have hlen : s.length - rest.length = e.length := by omega
    set path' := rest.dropWhile (· = slash) with hpath'
    refine ⟨path', if DIRSIZ ≤ e.length then s.take DIRSIZ
      else s.take e.length ++ 0 :: name.drop (e.length + 1), ?_, ?_, ?_, ?_⟩
    · rw [← hlen]
      simp only [skipelem, ← hs, if_neg h0]
      rfl
    · have hnul : ∀ c ∈ e, c ≠ 0 := fun c hc => (of_mem_elem hc).2
      rw [← happ, cname_elem hnul, segments, helems, hfirst, hpath', segments, elems_dropWhile]
      rfl
    · refine ⟨fun h => by rw [segments, elems_nul h]; rfl, fun hnil => ?_⟩
      by_contra h
      rw [segments, (elems_first h (hskip rest h)).2] at hnil
      cases hnil
    · have h1 : path'.length ≤ rest.length := (List.dropWhile_sublist _).length_le
      have h2 := List.length_pos_iff.2 hne
      omega

/-! ## The walk through the directories -/

/-- Resolve the elements of a path from inode `n` on. -/
def Fs.walk (fs : Fs) : ℕ → List (List UInt8) → Option ℕ
  | n, [] => some n
  | n, s :: ss =>
    if (fs.dinode n).type = T_DIR then
      (fs.lookup n s).bind fun (de, _) => fs.walk de.inum.toNat ss
    else none

/-- Resolve all elements but the last; they must lead to a directory. -/
def Fs.walkParent (fs : Fs) (n : ℕ) (ss : List (List UInt8)) : Option ℕ :=
  if ss = [] then none
  else (fs.walk n ss.dropLast).filter fun m => (fs.dinode m).type = T_DIR

/-- What path names rely on: directories consist of whole entries, and the inodes that they name
are on the disk and not freed when they are passed. -/
structure Fs.Dirs (fs : Fs) : Prop where
  whole : ∀ {n}, n < fs.sb.ninodes → (fs.dinode n).type = T_DIR → 16 ∣ (fs.dinode n).size.toNat
  range : ∀ {n}, n < fs.sb.ninodes → (fs.dinode n).type = T_DIR → ∀ de ∈ fs.dir n, de.inum ≠ 0 →
    de.inum.toNat < fs.sb.ninodes
  anchored : ∀ {n}, n < fs.sb.ninodes → (fs.dinode n).type = T_DIR → ∀ de ∈ fs.dir n, de.inum ≠ 0 →
    (fs.dinode de.inum.toNat).type ≠ 0 → fs.Anchored de.inum.toNat
  root : ROOTINO < fs.sb.ninodes ∧ fs.Anchored ROOTINO

/-- Inode `n` is not free, and neither is an inode that a directory names. -/
def Fs.Alloc (fs : Fs) (n : ℕ) : Prop :=
  (fs.dinode n).type ≠ 0 ∧ ∀ m < fs.sb.ninodes, (fs.dinode m).type = T_DIR → ∀ de ∈ fs.dir m,
    de.inum ≠ 0 → (fs.dinode de.inum.toNat).type ≠ 0

/-- The inode cache has fewer than two free entries. -/
def Fs.Full (fs : Fs) : Prop := ∀ a b, (fs.icache a).ref = 0 → (fs.icache b).ref = 0 → a = b

/-- The inode that a call returns, with a reference to it. -/
def Resolves (F : Prop) (fs : Fs) (w : Option ℕ) : Option (Fin NINODE) → Fs → Prop
  | none, fs' => w = none ∧ Held F fs [] fs'
  | some j, fs' => w = some (fs'.icache j).inum ∧ Held F fs [j] fs'

/-- The outcomes of `namex`: a panic, or the end of the walk from inode `n`. -/
inductive Namex (F : Prop) (fs : Fs) (parent : Bool) (n : ℕ) (ss : List (List UInt8)) :
    Except FsPanic (Option (Fin NINODE) × List UInt8 × Fs) → Prop
  | full : fs.Full → Namex F fs parent n ss (.error .iget)
  | free : ¬ fs.Alloc n → Namex F fs parent n ss (.error .noType)
  | inode {r name fs'} : parent = false → Resolves F fs (fs.walk n ss) r fs' →
      Namex F fs parent n ss (.ok (r, name, fs'))
  | parent {r name fs'} : parent = true → Resolves F fs (fs.walkParent n ss) r fs' →
      (∀ dp, r = some dp → fs'.Locked dp ∧ ss.getLast? = some (cname name)) →
      Namex F fs parent n ss (.ok (r, name, fs'))

theorem cname_cname (s : List UInt8) : cname (cname s) = cname s := by
  have hlen : (cname s).length ≤ DIRSIZ :=
    ((List.takeWhile_sublist _).length_le).trans (List.length_take_le _ _)
  rw [cname, cstr, List.take_of_length_le hlen]
  refine List.takeWhile_eq_self_iff.2 fun c hc => ?_
  rw [cname, cstr] at hc
  have := List.mem_takeWhile_imp hc
  exact this

section
variable {F : Prop} {fs fs' : Fs} {n : ℕ} {ss : List (List UInt8)} {i : Fin NINODE}

theorem Fs.lookup_cname (n : ℕ) (name : List UInt8) : fs.lookup n (cname name) = fs.lookup n name := by
  rw [Fs.lookup, cname_cname, Fs.lookup]

/-- An entry that is found. -/
theorem Fs.lookup_mem {name : List UInt8} {de : Dirent} {k : ℕ} (h : fs.lookup n name = some (de, k)) :
    de ∈ fs.dir n ∧ de.inum ≠ 0 := by
  obtain ⟨hk, hkey⟩ := Slots.getElem?_of_find h
  exact ⟨List.mem_of_getElem? hk, (Dirent.key_eq_some.1 hkey).1⟩

theorem Fs.walkParent_cons (n : ℕ) {s : List UInt8} (hss : ss ≠ []) :
    fs.walkParent n (s :: ss) = if (fs.dinode n).type = T_DIR then
      (fs.lookup n s).bind fun (de, _) => fs.walkParent de.inum.toNat ss else none := by
  rw [walkParent, if_neg (by rintro ⟨⟩), List.dropLast_cons_of_ne_nil hss, walk]
  split_ifs with hdir
  · cases fs.lookup n s with
    | none => rfl
    | some r => simp only [Option.bind_some, walkParent, if_neg hss]
  · rfl

theorem Fs.walk_notDir (h : (fs.dinode n).type ≠ T_DIR) (s : List UInt8) :
    fs.walk n (s :: ss) = none := if_neg h

theorem Fs.walkParent_notDir (h : (fs.dinode n).type ≠ T_DIR) (ss : List (List UInt8)) :
    fs.walkParent n ss = none := by
  match ss with
  | [] => rfl
  | [s] => simp [walkParent, walk, h]
  | s :: t :: ss => rw [walkParent_cons n (List.cons_ne_nil t ss), if_neg h]

theorem Fs.walkParent_dir {m : ℕ} (h : fs.walkParent n ss = some m) :
    (fs.dinode m).type = T_DIR := by
  rw [walkParent] at h
  split_ifs at h
  exact of_decide_eq_true (Option.filter_eq_some_iff.1 h).2

namespace Namex

variable {parent : Bool} {s : List UInt8}
  {x : Except FsPanic (Option (Fin NINODE) × List UInt8 × Fs)}

/-- The walk ends at a file, or at a name that is not there. -/
theorem none (h : fs.walk n ss = .none) (h' : parent = true → fs.walkParent n ss = .none)
    (hh : Held F fs [] fs') (name : List UInt8) :
    Namex F fs parent n ss (.ok (.none, name, fs')) := by
  cases parent with
  | false => exact .inode rfl ⟨h, hh⟩
  | true => exact .parent rfl ⟨h' rfl, hh⟩ (by rintro _ ⟨⟩)

/-- One element is resolved. -/
theorem cons (hn : n < fs.sb.ninodes) (hdir : (fs.dinode n).type = T_DIR) {de : Dirent} {k : ℕ}
    (hde : fs.lookup n s = some (de, k)) (hss : parent = true → ss ≠ [])
    (h : Namex F fs parent de.inum.toNat ss x) : Namex F fs parent n (s :: ss) x := by
  obtain ⟨hmem, h0⟩ := fs.lookup_mem hde
  cases h with
  | full hfull => exact .full hfull
  | free hfree => exact .free fun ha => hfree ⟨ha.2 n hn hdir de hmem h0, ha.2⟩
  | inode hp hr =>
    refine .inode hp ?_
    rwa [Fs.walk, if_pos hdir, hde]
  | parent hp hr hdp =>
    refine .parent hp ?_ fun dp hr => ?_
    · rwa [Fs.walkParent_cons n (hss hp), if_pos hdir, hde]
    · obtain ⟨hlock, hlast⟩ := hdp dp hr
      refine ⟨hlock, ?_⟩
      rw [List.getLast?_cons_of_ne_nil (hss hp)]
      exact hlast

end Namex

theorem Held.full (h : Held F fs [i] fs') (hfull : ∀ k, 0 < (fs'.icache k).ref) : fs.Full := by
  have hone : ∀ a, (fs.icache a).ref = 0 → a = i := by
    intro a ha
    have hpos := hfull a
    rw [h.ref, ha, Nat.zero_add, List.count_pos_iff] at hpos
    exact List.mem_singleton.1 hpos
  exact fun a b ha hb => (hone a ha).trans (hone b hb).symm

/-- A directory that has been locked. -/
theorem Held.dirOk {l : List (Fin NINODE)} (h : Held F fs l fs') (hd : fs.Dirs) (hi : fs'.Locked i)
    (hdir : (fs.dinode (fs'.icache i).inum).type = T_DIR) : DirOk F fs' i := by
  have he := h.cons.entry hi.1
  refine ⟨h.cons, hi, ?_, ?_⟩
  · rw [← (he.valid hi.2).1, ← Fs.dinode, h.dinode, hdir]
  · rw [Fs.file, length_contents, ← Fs.dinode, h.dinode]
    exact hd.whole (h.sb ▸ he.range) hdir

/-- `dirlookup` takes a reference to the inode that it finds. -/
theorem Held.dirlookup {l : List (Fin NINODE)} (h : Held F fs l fs') (hd : fs.Dirs) (dev : Devsw)
    (hi : DirOk F fs' i) (name : List UInt8) :
    (fs.lookup (fs'.icache i).inum name = none ∧ Xv6.dirlookup dev fs' i name = .ok (none, fs')) ∨
    ∃ de k, fs.lookup (fs'.icache i).inum name = some (de, k) ∧
      ((Xv6.dirlookup dev fs' i name = .error .iget ∧ ∀ k, 0 < (fs'.icache k).ref) ∨
        ∃ j fs'', Xv6.dirlookup dev fs' i name = .ok (some (j, 16 * k), fs'') ∧
          Held F fs (j :: l) fs'' ∧ (fs''.icache j).inum = de.inum.toNat ∧ Held F fs' [j] fs'') := by
  rw [hi.dirlookup_eq dev, ← h.lookup]
  cases hde : fs'.lookup (fs'.icache i).inum name with
  | none => exact .inl ⟨rfl, rfl⟩
  | some r =>
    obtain ⟨de, k⟩ := r
    refine .inr ⟨de, k, rfl, ?_⟩
    simp only [Fs.found, bind, Except.bind]
    cases hget : Xv6.iget fs'.icache ROOTDEV de.inum.toNat with
    | error e =>
      obtain ⟨rfl, hfull⟩ := iget_error hget
      exact .inl ⟨rfl, hfull⟩
    | ok r =>
      obtain ⟨j, c⟩ := r
      have hn : (fs'.icache i).inum < fs.sb.ninodes := by
        rw [← h.sb]
        exact (hi.cons.entry hi.locked.1).range
      have hdir : (fs.dinode (fs'.icache i).inum).type = T_DIR := by
        rw [← h.dinode, Fs.dinode, hi.di_eq, hi.type]
      obtain ⟨hmem, h0⟩ := Fs.lookup_mem hde
      rw [h.dir] at hmem
      have hrange := hd.range hn hdir de hmem h0
      obtain ⟨h', hj⟩ := h.iget hrange hget
      exact .inr ⟨j, _, rfl, h', hj, ((Held.refl h.cons).iget (by rwa [h.sb]) hget).1⟩

/-- **The loop of `namex`** walks from the inode that it holds. -/
theorem namexLoop_spec (hd : fs.Dirs) (dev : Devsw) (parent : Bool) (fuel : ℕ) :
    ∀ {fs' : Fs} {ip : Fin NINODE} {path : List UInt8} (name : List UInt8), path.length < fuel →
    Held F fs [ip] fs' →
    ((fs.dinode (fs'.icache ip).inum).type ≠ 0 → fs.Anchored (fs'.icache ip).inum) →
    (parent = true → segments path = [] → fs.Anchored (fs'.icache ip).inum) →
    Namex F fs parent (fs'.icache ip).inum (segments path)
      (namexLoop dev parent fuel fs' ip path name) := by
  induction fuel with
  | zero =>
    intro fs' ip path name hlen
    exact absurd hlen (Nat.not_lt_zero _)
  | succ fuel ih =>
    intro fs' ip path name hlen h hanch hend
    have href : fs'.Ref ip := h.ref_of_mem List.mem_cons_self
    rcases skipelem_cases path name with ⟨hskip, hnil⟩ | ⟨path', name', hskip, hseg, hlast, hlt⟩
    · rw [namexLoop, hskip, hnil]
      cases parent with
      | false => exact .inode rfl ⟨rfl, h⟩
      | true =>
        obtain ⟨fs'', hput, h'', -⟩ := h.iput (hend rfl hnil)
        simp only [if_true, hput, bind, Except.bind]
        exact .parent rfl ⟨rfl, h''⟩ (by rintro _ ⟨⟩)
    · rw [namexLoop, hskip, hseg]
      simp only []
      rcases h.ilock href with ⟨herr, h0⟩ | ⟨fs₁, hlock, h₁, hlocked, hinum⟩
      · rw [herr]
        exact .free fun ha => ha.1 h0
      · have hn : (fs'.icache ip).inum < fs.sb.ninodes := by
          rw [← h.sb]
          exact (h.cons.entry href).range
        obtain ⟨hdi, ht⟩ := (h₁.cons.entry hlocked.1).valid hlocked.2
        rw [hinum, ← Fs.dinode, h₁.dinode] at hdi
        rw [← hdi] at ht
        have hanch₁ : fs.Anchored (fs₁.icache ip).inum := by
          rw [hinum]
          exact hanch ht
        simp only [hlock, bind, Except.bind, ← hdi]
        by_cases hdir : (fs.dinode (fs'.icache ip).inum).type = T_DIR
        · rw [if_neg (not_not.2 hdir)]
          by_cases hstop : parent = true ∧ path'.headD 0 = 0
          · obtain ⟨rfl, hnul⟩ := hstop
            rw [if_pos ⟨rfl, hnul⟩, hlast.1 hnul]
            refine .parent rfl ⟨?_, h₁⟩ fun dp hdp => ?_
            · rw [hinum]
              simp [Fs.walkParent, Fs.walk, hdir]
            · cases hdp
              exact ⟨hlocked, rfl⟩
          · rw [if_neg hstop]
            have hok := h₁.dirOk hd hlocked (by rw [hinum]; exact hdir)
            have hss : parent = true → segments path' ≠ [] := fun hp hnil =>
              hstop ⟨hp, hlast.2 hnil⟩
            rcases h₁.dirlookup hd dev hok name' with ⟨hnone, hlook⟩ | ⟨de, k, hde, hlook⟩
            · obtain ⟨fs₂, hput, h₂, -⟩ := h₁.iput hanch₁
              simp only [hlook, hput]
              rw [hinum] at hnone
              refine .none ?_ (fun hp => ?_) h₂ name'
              · rw [Fs.walk, if_pos hdir, Fs.lookup_cname, hnone]
                rfl
              · rw [Fs.walkParent_cons _ (hss hp), if_pos hdir, Fs.lookup_cname, hnone]
                rfl
            · rcases hlook with ⟨herr, hfull⟩ | ⟨j, fs₂, hlook, h₂, hj, h₁₂⟩
              · rw [herr]
                exact .full (h₁.full hfull)
              · have hip := h₁₂.inum ip hlocked.1
                obtain ⟨fs₃, hput, h₃, hsame⟩ := (h₂.perm (List.Perm.swap ip j [])).iput
                  (by rw [hip]; exact hanch₁)
                obtain ⟨r, hr⟩ := hsame j
                have hj₃ : (fs₃.icache j).inum = de.inum.toNat := by
                  rw [hr]
                  exact hj
                rw [hinum] at hde
                obtain ⟨hmem, h0⟩ := Fs.lookup_mem hde
                simp only [hlook, hput]
                refine .cons hn hdir (by rw [Fs.lookup_cname]; exact hde) hss ?_
                rw [← hj₃]
                refine ih name' (by omega) h₃ ?_ fun hp hnil => absurd hnil (hss hp)
                rw [hj₃]
                exact hd.anchored hn hdir de hmem h0
        · rw [if_pos hdir]
          obtain ⟨fs₂, hput, h₂, -⟩ := h₁.iput hanch₁
          rw [hput]
          exact .none (Fs.walk_notDir hdir _) (fun _ => Fs.walkParent_notDir hdir _) h₂ name'

/-- The inode at which a walk starts. -/
def Fs.start (fs : Fs) (cwd : Fin NINODE) (path : List UInt8) : ℕ :=
  if path.headD 0 = slash then ROOTINO else (fs.icache cwd).inum

variable {cwd : Fin NINODE}

/-- **`namex`** walks from the root or from the current directory. -/
theorem namex_spec (h : Consistent F fs) (hd : fs.Dirs) (hcwd : fs.Ref cwd) (dev : Devsw)
    (path : List UInt8) (parent : Bool) (name : List UInt8) :
    Namex F fs parent (fs.start cwd path) (segments path) (namex dev fs cwd path parent name) := by
  rw [namex, Fs.start]
  split_ifs with hroot
  · cases hget : iget fs.icache ROOTDEV ROOTINO with
    | error e =>
      obtain ⟨rfl, hfull⟩ := iget_error hget
      exact .full fun a _ ha => absurd ha (hfull a).ne'
    | ok r =>
      obtain ⟨j, c⟩ := r
      obtain ⟨h', hj⟩ := (Held.refl h).iget hd.root.1 hget
      have hspec := namexLoop_spec hd dev parent (path.length + 1) name (Nat.lt_succ_self _) h'
        (fun _ => by rw [hj]; exact hd.root.2) (fun _ _ => by rw [hj]; exact hd.root.2)
      rw [hj] at hspec
      exact hspec
  · have h' := (Held.refl h).idup hcwd
    have hinum := h'.inum cwd hcwd
    have hanch : fs.Anchored (fs.icache cwd).inum := .inr ⟨cwd, hcwd, rfl⟩
    have hspec := namexLoop_spec hd dev parent (path.length + 1) name (Nat.lt_succ_self _) h'
      (fun _ => by rw [hinum]; exact hanch) (fun _ _ => by rw [hinum]; exact hanch)
    rw [hinum] at hspec
    exact hspec

theorem namei_spec (h : Consistent F fs) (hd : fs.Dirs) (hcwd : fs.Ref cwd) (dev : Devsw)
    (path : List UInt8) :
    (namei dev fs cwd path = .error .iget ∧ fs.Full) ∨
    (namei dev fs cwd path = .error .noType ∧ ¬ fs.Alloc (fs.start cwd path)) ∨
    ∃ r fs', namei dev fs cwd path = .ok (r, fs') ∧
      Resolves F fs (fs.walk (fs.start cwd path) (segments path)) r fs' := by
  have hspec := namex_spec h hd hcwd dev path false []
  rw [namei]
  generalize namex dev fs cwd path false [] = x at hspec ⊢
  cases hspec with
  | full hfull => exact .inl ⟨rfl, hfull⟩
  | free hfree => exact .inr (.inl ⟨rfl, hfree⟩)
  | inode _ hr => exact .inr (.inr ⟨_, _, rfl, hr⟩)
  | parent hp => cases hp

theorem nameiparent_spec (h : Consistent F fs) (hd : fs.Dirs) (hcwd : fs.Ref cwd) (dev : Devsw)
    (path name : List UInt8) :
    (nameiparent dev fs cwd path name = .error .iget ∧ fs.Full) ∨
    (nameiparent dev fs cwd path name = .error .noType ∧ ¬ fs.Alloc (fs.start cwd path)) ∨
    ∃ r name' fs', nameiparent dev fs cwd path name = .ok (r, name', fs') ∧
      Resolves F fs (fs.walkParent (fs.start cwd path) (segments path)) r fs' ∧
      ∀ dp, r = some dp → fs'.Locked dp ∧ (segments path).getLast? = some (cname name') := by
  have hspec := namex_spec h hd hcwd dev path true name
  rw [nameiparent]
  generalize namex dev fs cwd path true name = x at hspec ⊢
  cases hspec with
  | full hfull => exact .inl ⟨rfl, hfull⟩
  | free hfree => exact .inr (.inl ⟨rfl, hfree⟩)
  | inode hp => cases hp
  | parent _ hr hdp => exact .inr (.inr ⟨_, _, _, rfl, hr, hdp⟩)

/-- A walk fails at an inode that is not a directory, or at a name that is not in it. -/
theorem Fs.walk_eq_none (n : ℕ) (ss : List (List UInt8)) : fs.walk n ss = none ↔
    ∃ ss₁ s ss₂ m, ss = ss₁ ++ s :: ss₂ ∧ fs.walk n ss₁ = some m ∧
      ((fs.dinode m).type ≠ T_DIR ∨ fs.lookup m s = none) := by
  induction ss generalizing n with
  | nil => simp [walk]
  | cons s ss ih =>
    constructor
    · intro h
      rw [walk] at h
      split_ifs at h with hdir
      · cases hde : fs.lookup n s with
        | none => exact ⟨[], s, ss, n, rfl, rfl, .inr hde⟩
        | some r =>
          rw [hde] at h
          obtain ⟨ss₁, s', ss₂, m, rfl, hm, hfail⟩ := (ih r.1.inum.toNat).1 h
          refine ⟨s :: ss₁, s', ss₂, m, rfl, ?_, hfail⟩
          rw [walk, if_pos hdir, hde]
          exact hm
      · exact ⟨[], s, ss, n, rfl, rfl, .inl hdir⟩
    · rintro ⟨ss₁, s', ss₂, m, heq, hm, hfail⟩
      cases ss₁ with
      | nil =>
        cases heq
        cases hm
        rw [walk]
        rcases hfail with hdir | hde
        · rw [if_neg hdir]
        · rw [hde]
          exact ite_self _
      | cons t ss₁ =>
        cases heq
        rw [walk] at hm ⊢
        split_ifs at hm with hdir
        obtain ⟨r, hde, hm⟩ := Option.bind_eq_some_iff.1 hm
        rw [if_pos hdir, hde]
        exact (ih r.1.inum.toNat).2 ⟨ss₁, s', ss₂, m, rfl, hm, hfail⟩

/-- The walk to the parent and then to the last element. -/
theorem Fs.walk_of_walkParent {m : ℕ} {s : List UInt8} (h : fs.walkParent n ss = some m)
    (hs : ss.getLast? = some s) :
    fs.walk n ss = (fs.lookup m s).map fun (de, _) => de.inum.toNat := by
  induction ss generalizing n with
  | nil => cases h
  | cons t ss ih =>
    by_cases hss : ss = []
    · subst hss
      rw [walkParent, if_neg (List.cons_ne_nil t [])] at h
      rw [List.getLast?_singleton] at hs
      cases hs
      obtain ⟨hm, hdir⟩ := Option.filter_eq_some_iff.1 h
      cases hm
      rw [walk, if_pos (of_decide_eq_true hdir)]
      cases fs.lookup m s <;> rfl
    · rw [walkParent_cons n hss] at h
      split_ifs at h with hdir
      obtain ⟨r, hde, h⟩ := Option.bind_eq_some_iff.1 h
      rw [List.getLast?_cons_of_ne_nil hss] at hs
      rw [walk, if_pos hdir, hde]
      exact ih h hs

/-- **Path resolution.**  `namei` walks through all elements of the path, `nameiparent` through all
but the last, and the last is then found by `dirlookup`. -/
theorem namei_resolves (h : Consistent F fs) (hd : fs.Dirs) {cwd : Fin NINODE} (hcwd : fs.Ref cwd)
    {path : List UInt8} (ha : fs.Alloc (fs.start cwd path)) (dev : Devsw) (name : List UInt8) :
    (¬ fs.Full → namei dev fs cwd path ≠ .error .iget ∧
      nameiparent dev fs cwd path name ≠ .error .iget) ∧
    (namei dev fs cwd path ≠ .error .iget → ∃ r fs', namei dev fs cwd path = .ok (r, fs') ∧
      Resolves F fs (fs.walk (fs.start cwd path) (segments path)) r fs' ∧
      (r = none ↔ ∃ ss₁ s ss₂ m, segments path = ss₁ ++ s :: ss₂ ∧
        fs.walk (fs.start cwd path) ss₁ = some m ∧
        ((fs.dinode m).type ≠ T_DIR ∨ fs.lookup m s = none))) ∧
    (nameiparent dev fs cwd path name ≠ .error .iget →
      ∃ r name' fs', nameiparent dev fs cwd path name = .ok (r, name', fs') ∧
        Resolves F fs (fs.walkParent (fs.start cwd path) (segments path)) r fs' ∧
        ∀ dp, r = some dp → (segments path).getLast? = some (cname name') ∧
          ilock fs' dp = .ok fs' ∧
          dirlookup dev fs' dp name' = fs'.found (fs.lookup (fs'.icache dp).inum name') ∧
          fs.walk (fs.start cwd path) (segments path) =
            (fs.lookup (fs'.icache dp).inum name').map fun (de, _) => de.inum.toNat) := by
  refine ⟨fun hroom => ⟨fun herr => ?_, fun herr => ?_⟩, fun herr => ?_, fun herr => ?_⟩
  · rcases namei_spec h hd hcwd dev path with ⟨-, hfull⟩ | ⟨hfree, -⟩ | ⟨r, fs', hok, -⟩
    · exact hroom hfull
    · rw [hfree] at herr
      cases herr
    · rw [hok] at herr
      cases herr
  · rcases nameiparent_spec h hd hcwd dev path name with ⟨-, hfull⟩ | ⟨hfree, -⟩ | ⟨r, n', fs', hok, -⟩
    · exact hroom hfull
    · rw [hfree] at herr
      cases herr
    · rw [hok] at herr
      cases herr
  · rcases namei_spec h hd hcwd dev path with ⟨hbad, -⟩ | ⟨-, hfree⟩ | ⟨r, fs', hok, hr⟩
    · exact absurd hbad herr
    · exact absurd ha hfree
    · refine ⟨r, fs', hok, hr, ?_⟩
      rw [← Fs.walk_eq_none]
      cases r with
      | none => exact iff_of_true rfl hr.1
      | some j => exact iff_of_false (by rintro ⟨⟩) fun hnone => by cases hnone.symm.trans hr.1
  · rcases nameiparent_spec h hd hcwd dev path name with ⟨hbad, -⟩ | ⟨-, hfree⟩ |
      ⟨r, name', fs', hok, hr, hdp⟩
    · exact absurd hbad herr
    · exact absurd ha hfree
    · refine ⟨r, name', fs', hok, hr, ?_⟩
      rintro dp rfl
      obtain ⟨hlock, hlast⟩ := hdp dp rfl
      obtain ⟨hw, hheld⟩ := hr
      have hok := hheld.dirOk hd hlock (Fs.walkParent_dir hw)
      refine ⟨hlast, ?_, ?_, ?_⟩
      · simp only [ilock, if_neg (Nat.not_lt.2 hlock.1), if_pos hlock.2]
      · rw [hok.dirlookup_eq dev, hheld.lookup]
      · rw [Fs.walk_of_walkParent hw hlast, Fs.lookup_cname]

end

/-- An entry is free, or names an inode that is in use. -/
def Fs.Names (fs : Fs) (de : Dirent) : Prop :=
  de.inum = 0 ∨ (de.inum.toNat < fs.sb.ninodes ∧ (fs.dinode de.inum.toNat).type ≠ 0 ∧
    (fs.dinode de.inum.toNat).nlink ≠ 0)

/-- Every directory consists of whole entries, and they name inodes that are in use. -/
def Fs.Tidy (fs : Fs) : Prop :=
  ROOTINO < fs.sb.ninodes ∧ (fs.dinode ROOTINO).type ≠ 0 ∧ (fs.dinode ROOTINO).nlink ≠ 0 ∧
    ∀ n < fs.sb.ninodes, (fs.dinode n).type = T_DIR →
      16 ∣ (fs.dinode n).size.toNat ∧ ∀ de ∈ fs.dir n, fs.Names de

instance (fs : Fs) (de : Dirent) : Decidable (fs.Names de) :=
  inferInstanceAs (Decidable (_ ∨ _))

instance (fs : Fs) : Decidable fs.Tidy := inferInstanceAs (Decidable (_ ∧ _))

theorem Fs.Tidy.dirs {fs : Fs} (h : fs.Tidy) : fs.Dirs := by
  obtain ⟨hroot, -, hlink, hdir⟩ := h
  refine ⟨fun hn ht => (hdir _ hn ht).1, fun hn ht de hde h0 => ?_, fun hn ht de hde h0 _ => ?_,
    hroot, .inl hlink⟩
  · exact (((hdir _ hn ht).2 de hde).resolve_left h0).1
  · exact .inl (((hdir _ hn ht).2 de hde).resolve_left h0).2.2

theorem Fs.Tidy.alloc {fs : Fs} (h : fs.Tidy) : fs.Alloc ROOTINO :=
  ⟨h.2.1, fun _ hn ht de hde h0 => (((h.2.2.2 _ hn ht).2 de hde).resolve_left h0).2.1⟩

/-! A disk with 6 inodes in block 2, the bit map in block 3 and 12 data blocks. -/

def treeSb : Superblock := ⟨16, 12, 6, 0, 2, 2, 3⟩

def treeDisk : Disk := fun b j =>
  if b = 1 then ([16, 0, 0, 0, 12, 0, 0, 0, 6, 0, 0, 0, 0, 0, 0, 0, 2, 0, 0, 0, 2, 0, 0, 0, 3] :
    List UInt8).getD j 0
  else if b = 3 ∧ j = 0 then 0x0f
  else 0

def treeFs : Fs := ⟨treeSb, treeDisk, fun _ => ⟨0, 0, 0, false, .zero⟩⟩

theorem treeFs_consistent : Consistent True treeFs := by
  refine empty_consistent ⟨by decide, by decide, by decide, by decide⟩ (by decide +kernel)
    (by decide +kernel) (by decide) fun i hi => ?_
  simp only [treeSb] at hi
  interval_cases i <;> exact Dinode.ext (by decide) (by decide) (by decide) (by decide)
    (by decide) (funext (by decide))

/-- A root directory with a file `f` in it. -/
def fileTree : Reached (Reach (· = treeFs) (FsStep noDev)) fun fs =>
    0 < (fs.icache 0).ref ∧ fs.Tidy ∧ (fs.icache 2).ref = 0 ∧ (fs.icache 3).ref = 0 ∧
      fs.walk ROOTINO (segments [slash, slash, 102, slash]) = some 2 :=
  .ofRun _ fsStep_of_exec rfl [.ialloc T_DIR, .ilock 0, .update 0 0 0 1, .dirlink 0 [46] 1,
    .dirlink 0 [46, 46] 1, .ialloc T_FILE, .ilock 1, .update 1 0 0 1, .dirlink 0 [102] 2]
    (by decide +kernel)

theorem namei_resolves_file : ∃ fs j fs', namei noDev fs 0 [slash, slash, 102, slash] =
    .ok (some j, fs') ∧ (fs'.icache j).inum = 2 := by
  obtain ⟨fs, hr, hp⟩ := fileTree
  obtain ⟨href, htidy, h2, h3, hwalk⟩ := of_decide_eq_true hp
  have hroom : ¬ fs.Full := fun hfull => absurd (hfull 2 3 h2 h3) (by decide)
  have ha : fs.Alloc (fs.start 0 [slash, slash, 102, slash]) := htidy.alloc
  obtain ⟨hok, hnamei, -⟩ := namei_resolves (treeFs_consistent.reach hr) htidy.dirs href ha noDev []
  obtain ⟨r, fs', hok, hres, -⟩ := hnamei (hok hroom).1
  cases r with
  | none =>
    have hnone := hwalk.symm.trans hres.1
    cases hnone
  | some j => exact ⟨fs, j, fs', hok, (Option.some.inj (hwalk.symm.trans hres.1)).symm⟩

end Xv6

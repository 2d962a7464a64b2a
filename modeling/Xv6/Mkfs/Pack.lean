/-
  `mkfs`: packing the files into the image.

  `main` makes the root directory and then, for each file, an inode, an entry
  in the root and the contents as the host's `read` returns them.  `Packed`
  says what the state is after some of the files, `Fits` that the files have
  room; the run then succeeds (`main_packed`).  At the end the size of the root
  is rounded up to a whole number of blocks, past its last block.
-/
import Xv6.Mkfs.Image

namespace Xv6

open Bytes Fallible

namespace Mkfs

/-! ## The program -/

/-- A file on the command line: its name, and what `read` returns one after the other. -/
structure HostFile where
  name : List UInt8
  reads : List (List UInt8)

def HostFile.bytes (f : HostFile) : List UInt8 := f.reads.flatten

/-- The name in the file system, without a leading `_`. -/
def HostFile.entry (f : HostFile) : List UInt8 :=
  if f.name.head? = some 95 then f.name.tail else f.name

/-- A directory entry as bytes. -/
def dirent (inum : ℕ) (name : List UInt8) : List UInt8 :=
  Dirent.toBytes ⟨.ofNat inum, strncpy DIRSIZ name⟩

/-- The body of the loop over the files. -/
def addFile (rootino : ℕ) (s : Mkfs) (f : HostFile) : Except Error Mkfs :=
  if slash ∈ f.name then .error .assert
  else do
    let (inum, s) ← ialloc s T_FILE
    let s ← iappend s rootino (dirent inum f.entry)
    f.reads.foldlM (fun s buf => iappend s inum buf) s

/-- The super block, as `memmove` stores it. -/
def sbBlock : Block :=
  leSetAll 4 (fun k => [sb.size, sb.nblocks, sb.ninodes, sb.nlog, sb.logstart, sb.inodestart,
    sb.bmapstart].getD k 0) 7 (fun _ => 0) 0

/-- The zeroed image with the super block. -/
def start : Mkfs := ⟨wsect (fun _ _ => 0) 1 sbBlock, 1, nmeta⟩

def dot : List UInt8 := [46]
def dotdot : List UInt8 := [46, 46]

def main (files : List HostFile) : Except Error Disk := do
  let (rootino, s) ← ialloc start T_DIR
  if rootino ≠ ROOTINO then .error .assert
  else do
    let s ← iappend s rootino (dirent rootino dot)
    let s ← iappend s rootino (dirent rootino dotdot)
    let s ← files.foldlM (addFile rootino) s
    -- fix size of root inode dir
    let din ← rinode s.disk rootino
    let off := (din.size.toNat / BSIZE + 1) * BSIZE
    let d ← winode s.disk rootino { din with size := .ofNat off }
    balloc d s.freeblock

/-! ## Sequences of appends -/

section
variable {s s₁ s₂ : Mkfs} {i : ℕ} {p q : List UInt8}

theorem Appended.refl (h : s.Inv) (i : ℕ) : Appended s i [] s where
  inv := h
  others := ⟨fun _ _ _ => rfl, fun _ _ _ _ => rfl⟩
  file := (List.append_nil _).symm
  type := rfl
  freeinode := rfl
  freeblock := by rw [List.append_nil]

theorem Appended.trans (h₁ : Appended s i p s₁) (h₂ : Appended s₁ i q s₂) :
    Appended s i (p ++ q) s₂ where
  inv := h₂.inv
  others := by
    refine ⟨fun j hj hji => (h₂.others.dinode j hj hji).trans (h₁.others.dinode j hj hji),
      fun j hj hji htj => ?_⟩
    rw [h₂.others.file j hj hji (by rwa [h₁.others.dinode j hj hji]), h₁.others.file j hj hji htj]
  file := by rw [h₂.file, h₁.file, List.append_assoc]
  type := h₂.type.trans h₁.type
  freeinode := h₂.freeinode.trans h₁.freeinode
  freeblock := by
    have h₁' := h₁.freeblock
    have h₂' := h₂.freeblock
    rw [h₁.file, List.append_assoc] at h₂'
    omega

/-- The contents of a file, read by read. -/
theorem Inv.appendAll (hi : i < NINODES) (reads : List (List UInt8)) : ∀ {s : Mkfs}, s.Inv →
    (s.dinode i).type = T_FILE → (∀ buf ∈ reads, buf ≠ []) →
    (s.file i ++ reads.flatten).length ≤ MAXFILE * BSIZE →
    s.freeblock + need (nblocks (s.file i ++ reads.flatten).length) ≤
      FSSIZE + need (nblocks (s.file i).length) →
    ∃ s', reads.foldlM (fun s buf => Mkfs.iappend s i buf) s = .ok s' ∧
      Appended s i reads.flatten s' := by
  induction reads with
  | nil =>
    intro s h _ _ _ _
    exact ⟨s, rfl, .refl h i⟩
  | cons buf reads ih =>
    intro s h ht hne hmax hroom
    have ht0 : (s.dinode i).type ≠ 0 := by rw [ht]; decide
    have hdev : (s.dinode i).type ≠ T_DEV := by rw [ht]; decide
    rw [List.flatten_cons, ← List.append_assoc] at hmax hroom
    have hle : (s.file i ++ buf).length ≤ (s.file i ++ buf ++ reads.flatten).length :=
      (List.sublist_append_left _ _).length_le
    have hmono : need (nblocks (s.file i ++ buf).length) ≤
        need (nblocks (s.file i ++ buf ++ reads.flatten).length) :=
      need_mono (nblocks_mono hle)
    obtain ⟨s₁, happ, h₁⟩ := h.iappend hi ht0 hdev (hne buf List.mem_cons_self) (hle.trans hmax)
      (by omega)
    have hcount := h₁.freeblock
    rw [← h₁.file] at hmax hroom hcount
    obtain ⟨s₂, hfold, h₂⟩ := ih h₁.inv (h₁.type.trans ht)
      (fun b hb => hne b (List.mem_cons_of_mem _ hb)) hmax (by omega)
    refine ⟨s₂, ?_, ?_⟩
    · rw [List.foldlM_cons, happ]
      exact hfold
    · rw [List.flatten_cons]
      exact h₁.trans h₂

end

/-! ## Allocating an inode -/

section
variable {s : Mkfs}

/-- The inode `freeinode` has been allocated. -/
structure Ialloced (s : Mkfs) (type : Int16) (s' : Mkfs) : Prop where
  inv : s'.Inv
  others : Others s s.freeinode s'
  type : (s'.dinode s.freeinode).type = type
  file : s'.file s.freeinode = []
  freeinode : s'.freeinode = s.freeinode + 1
  freeblock : s'.freeblock = s.freeblock

/-- **`ialloc`** takes the next inode, which is free. -/
theorem Inv.ialloc (h : s.Inv) (hi : s.freeinode < NINODES)
    (h0 : (s.dinode s.freeinode).type = 0) (type : Int16) :
    ∃ s', Mkfs.ialloc s type = .ok (s.freeinode, s') ∧ Ialloced s type s' := by
  have hok : Mkfs.ialloc s type = .ok (s.freeinode, store { s with freeinode := s.freeinode + 1 }
      s.freeinode { Dinode.zero with type := type, nlink := 1 }) := by
    simp only [Mkfs.ialloc, winode_eq _ hi, bind, Except.bind, store]
  refine ⟨_, hok, ?_⟩
  generalize hs₀ : ({ s with freeinode := s.freeinode + 1 } : Mkfs) = s₀
  generalize hdi : ({ Dinode.zero with type := type, nlink := 1 } : Dinode) = di
  have hinv : s₀.Inv := by
    rw [← hs₀]
    exact ⟨⟨h.fresh.ge, h.fresh.le, h.fresh.zero⟩, h.owned⟩
  have hempty : di.Empty := by
    rw [← hdi]
    exact ⟨fun _ => rfl, rfl⟩
  have hnew : (s₀.dinode s.freeinode).type = 0 := by
    rw [← hs₀]
    exact h0
  have howned := hinv.owned.alloc hi (by rwa [dinodeAt_image hi]) hempty
  have hself : (s₀.store s.freeinode di).dinode s.freeinode = di := by
    rw [dinode_store hi hi, if_pos rfl]
  have hothers := hinv.others_store hi di
  refine ⟨⟨hinv.fresh.store hi di, ?_⟩, ?_, ?_, ?_, ?_, ?_⟩
  · rw [image_store hi]
    exact howned
  · rw [← hs₀] at hothers ⊢
    exact ⟨hothers.dinode, hothers.file⟩
  · rw [hself, ← hdi]
  · refine List.eq_nil_of_length_eq_zero ?_
    rw [length_file, hself, hempty.2]
    rfl
  · rw [← hs₀]
    rfl
  · rw [← hs₀]
    rfl

end

/-! ## Files in the image -/

/-- The entries of the root directory: inode numbers and names. -/
def entries (files : List HostFile) : List (ℕ × List UInt8) :=
  (ROOTINO, dot) :: (ROOTINO, dotdot) :: (files.zipIdx 2).map fun x => (x.2, x.1.entry)

/-- The bytes of the root directory. -/
def rootBytes (files : List HostFile) : List UInt8 :=
  (entries files).flatMap fun x => dirent x.1 x.2

/-- The blocks that the files take. -/
def blocks (files : List HostFile) : ℕ :=
  need (nblocks (16 * (files.length + 2))) + (files.map fun f => need (nblocks f.bytes.length)).sum

/-- The files have room in the image, and `read` returns between 1 and `BSIZE` bytes. -/
structure Fits (files : List HostFile) : Prop where
  name : ∀ f ∈ files, slash ∉ f.name
  reads : ∀ f ∈ files, ∀ buf ∈ f.reads, buf ≠ [] ∧ buf.length ≤ BSIZE
  size : ∀ f ∈ files, f.bytes.length ≤ MAXFILE * BSIZE
  inodes : files.length + 2 ≤ NINODES
  blocks : nmeta + blocks files ≤ FSSIZE

/-- The state after the files. -/
structure Packed (files : List HostFile) (s : Mkfs) : Prop where
  inv : s.Inv
  freeinode : s.freeinode = files.length + 2
  freeblock : s.freeblock = nmeta + Mkfs.blocks files
  rootType : (s.dinode ROOTINO).type = T_DIR
  root : s.file ROOTINO = rootBytes files
  fileType : ∀ k < files.length, (s.dinode (k + 2)).type = T_FILE
  file : ∀ {k f}, files[k]? = some f → s.file (k + 2) = f.bytes
  free : ∀ i < NINODES, i = 0 ∨ s.freeinode ≤ i → (s.dinode i).type = 0

section
variable {files : List HostFile} {f : HostFile} {s : Mkfs}

theorem length_dirent (inum : ℕ) (name : List UInt8) : (dirent inum name).length = 16 :=
  Dirent.length_toBytes _ _

theorem entries_append (files : List HostFile) (f : HostFile) :
    entries (files ++ [f]) = entries files ++ [(files.length + 2, f.entry)] := by
  simp [entries, List.zipIdx_append, Nat.add_comm]

theorem rootBytes_append (files : List HostFile) (f : HostFile) :
    rootBytes (files ++ [f]) = rootBytes files ++ dirent (files.length + 2) f.entry := by
  simp [rootBytes, entries_append]

theorem length_entries (files : List HostFile) : (entries files).length = files.length + 2 := by
  simp [entries]

theorem length_rootBytes (files : List HostFile) :
    (rootBytes files).length = 16 * (files.length + 2) := by
  rw [rootBytes, List.length_flatMap, ← length_entries]
  simp [length_dirent, Nat.mul_comm]

theorem blocks_append (files : List HostFile) (f : HostFile) :
    Mkfs.blocks (files ++ [f]) + need (nblocks (16 * (files.length + 2))) =
      Mkfs.blocks files + need (nblocks (16 * (files.length + 1 + 2))) +
        need (nblocks f.bytes.length) := by
  simp only [Mkfs.blocks, List.length_append, List.length_singleton, List.map_append, List.map_cons,
    List.map_nil, List.sum_append, List.sum_cons, List.sum_nil]
  omega

theorem need_nil : need (nblocks ([] : List UInt8).length) = 0 := rfl

/-- One more file has been added. -/
structure Added (s : Mkfs) (f : HostFile) (s' : Mkfs) : Prop where
  inv : s'.Inv
  dinode : ∀ j < NINODES, j ≠ ROOTINO → j ≠ s.freeinode → s'.dinode j = s.dinode j
  file : ∀ j < NINODES, j ≠ ROOTINO → j ≠ s.freeinode → (s.dinode j).type ≠ 0 →
    s'.file j = s.file j
  rootType : (s'.dinode ROOTINO).type = T_DIR
  root : s'.file ROOTINO = s.file ROOTINO ++ dirent s.freeinode f.entry
  newType : (s'.dinode s.freeinode).type = T_FILE
  new : s'.file s.freeinode = f.bytes
  freeinode : s'.freeinode = s.freeinode + 1
  freeblock : s'.freeblock + need (nblocks (s.file ROOTINO).length) =
    s.freeblock + need (nblocks (s.file ROOTINO ++ dirent s.freeinode f.entry).length) +
      need (nblocks f.bytes.length)

/-- **The body of the loop:** an inode, an entry and the contents. -/
theorem Inv.addFile (h : s.Inv) (hroot : (s.dinode ROOTINO).type = T_DIR)
    (hlt : s.freeinode < NINODES) (hne : ROOTINO ≠ s.freeinode)
    (hfree : (s.dinode s.freeinode).type = 0) (hname : slash ∉ f.name)
    (hreads : ∀ buf ∈ f.reads, buf ≠ [])
    (hmax : (s.file ROOTINO ++ dirent s.freeinode f.entry).length ≤ MAXFILE * BSIZE)
    (hsize : f.bytes.length ≤ MAXFILE * BSIZE)
    (hroom : s.freeblock + need (nblocks (s.file ROOTINO ++ dirent s.freeinode f.entry).length) +
      need (nblocks f.bytes.length) ≤ FSSIZE + need (nblocks (s.file ROOTINO).length)) :
    ∃ s', Mkfs.addFile ROOTINO s f = .ok s' ∧ Added s f s' := by
  have hroot1 : ROOTINO < NINODES := by decide
  obtain ⟨s₁, halloc, h₁⟩ := h.ialloc hlt hfree T_FILE
  -- the entry in the root
  have hrt₁ : (s₁.dinode ROOTINO).type = T_DIR := by
    rw [h₁.others.dinode _ hroot1 hne, hroot]
  have hr₁ : s₁.file ROOTINO = s.file ROOTINO :=
    h₁.others.file _ hroot1 hne (by rw [hroot]; decide)
  rw [← hr₁] at hmax hroom
  rw [← h₁.freeblock] at hroom
  obtain ⟨s₂, happ, h₂⟩ := h₁.inv.iappend hroot1 (by rw [hrt₁]; decide) (by rw [hrt₁]; decide)
    (List.ne_nil_of_length_pos (by rw [length_dirent]; decide)) hmax (by omega)
  have hb₂ := h₂.freeblock
  -- the contents
  have hft₂ : (s₂.dinode s.freeinode).type = T_FILE := by
    rw [h₂.others.dinode _ hlt hne.symm, h₁.type]
  have hf₂ : s₂.file s.freeinode = [] := by
    rw [h₂.others.file _ hlt hne.symm (by rw [h₁.type]; decide), h₁.file]
  have hbytes : s₂.file s.freeinode ++ f.reads.flatten = f.bytes := by
    rw [hf₂]
    rfl
  obtain ⟨s₃, hfold, h₃⟩ := Inv.appendAll hlt f.reads h₂.inv hft₂ hreads
    (by rw [hbytes]; exact hsize) (by rw [hbytes, hf₂, need_nil]; omega)
  refine ⟨s₃, ?_, h₃.inv, fun j hj h1 hn => ?_, fun j hj h1 hn htj => ?_, ?_, ?_, ?_, ?_, ?_, ?_⟩
  · rw [Mkfs.addFile, if_neg hname, halloc]
    simp only [bind, Except.bind, happ]
    exact hfold
  · rw [h₃.others.dinode j hj hn, h₂.others.dinode j hj h1, h₁.others.dinode j hj hn]
  · have hd₁ := h₁.others.dinode j hj hn
    rw [h₃.others.file j hj hn (by rwa [h₂.others.dinode j hj h1, hd₁]),
      h₂.others.file j hj h1 (by rwa [hd₁]), h₁.others.file j hj hn htj]
  · rw [h₃.others.dinode _ hroot1 hne, h₂.type, hrt₁]
  · rw [h₃.others.file _ hroot1 hne (by rw [h₂.type, hrt₁]; decide), h₂.file, hr₁]
  · rw [h₃.type, hft₂]
  · rw [h₃.file, hbytes]
  · rw [h₃.freeinode, h₂.freeinode, h₁.freeinode]
  · have hb₃ := h₃.freeblock
    rw [hbytes, hf₂, need_nil] at hb₃
    rw [h₁.freeblock, hr₁] at hb₂
    omega

/-- **One more file** in the image. -/
theorem Packed.addFile (h : Packed files s) (hname : slash ∉ f.name)
    (hreads : ∀ buf ∈ f.reads, buf ≠ []) (hsize : f.bytes.length ≤ MAXFILE * BSIZE)
    (hinodes : files.length + 3 ≤ NINODES)
    (hblocks : nmeta + Mkfs.blocks (files ++ [f]) ≤ FSSIZE) :
    ∃ s', Mkfs.addFile ROOTINO s f = .ok s' ∧ Packed (files ++ [f]) s' := by
  have hcount := blocks_append files f
  have hino := h.freeinode
  have hblock := h.freeblock
  have hlt : s.freeinode < NINODES := by omega
  have hne : ROOTINO ≠ s.freeinode := by
    rw [hino]
    exact (Nat.lt_add_left _ (by decide)).ne
  have hlen₁ : (s.file ROOTINO).length = 16 * (files.length + 2) := by
    rw [h.root, length_rootBytes]
  have hlen₂ : (s.file ROOTINO ++ dirent s.freeinode f.entry).length =
      16 * (files.length + 1 + 2) := by
    rw [List.length_append, hlen₁, length_dirent]
    ring
  have hmax : 16 * (files.length + 1 + 2) ≤ MAXFILE * BSIZE := by
    simp only [MAXFILE, NDIRECT, NINDIRECT, BSIZE, NINODES] at hinodes ⊢
    omega
  obtain ⟨s', hadd, h'⟩ := h.inv.addFile h.rootType hlt hne (h.free _ hlt (.inr le_rfl)) hname hreads
    (hlen₂.trans_le hmax) hsize (by rw [hlen₁, hlen₂]; omega)
  have hold : ∀ k < files.length, k + 2 < NINODES ∧ k + 2 ≠ ROOTINO ∧ k + 2 ≠ s.freeinode :=
    fun k hk => ⟨by omega, by rw [ROOTINO]; omega, by omega⟩
  have hlast : ∀ {k}, k < (files ++ [f]).length → k < files.length ∨ k + 2 = s.freeinode := by
    intro k hk
    rw [List.length_append, List.length_singleton] at hk
    omega
  refine ⟨s', hadd, h'.inv, ?_, ?_, h'.rootType, ?_, fun k hk => ?_, fun {k g} hg => ?_,
    fun j hj hfree => ?_⟩
  · rw [h'.freeinode, hino, List.length_append]
    rfl
  · have hb := h'.freeblock
    rw [hlen₁, hlen₂] at hb
    omega
  · rw [h'.root, h.root, hino, rootBytes_append]
  · rcases hlast hk with hk | hk
    · obtain ⟨hj, h1, hn⟩ := hold k hk
      rw [h'.dinode _ hj h1 hn, h.fileType k hk]
    · rw [hk, h'.newType]
  · rcases hlast (List.getElem?_eq_some_iff.1 hg).1 with hk | hk
    · obtain ⟨hj, h1, hn⟩ := hold k hk
      rw [List.getElem?_append_left hk] at hg
      rw [h'.file _ hj h1 hn (by rw [h.fileType k hk]; decide), h.file hg]
    · obtain rfl : k = files.length := by omega
      rw [List.getElem?_concat_length] at hg
      cases hg
      rw [hk, h'.new]
  · rw [h'.freeinode] at hfree
    rw [h'.dinode j hj (by rw [ROOTINO]; omega) (by omega)]
    exact h.free j hj (by omega)

theorem Fits.addFile {rest : List HostFile} (h : Fits (files ++ f :: rest)) :
    slash ∉ f.name ∧ (∀ buf ∈ f.reads, buf ≠ []) ∧ f.bytes.length ≤ MAXFILE * BSIZE ∧
      files.length + 3 ≤ NINODES ∧ nmeta + Mkfs.blocks (files ++ [f]) ≤ FSSIZE := by
  have hmem : f ∈ files ++ f :: rest := List.mem_append_right _ List.mem_cons_self
  have hinodes := h.inodes
  rw [List.length_append, List.length_cons] at hinodes
  refine ⟨h.name f hmem, fun buf hbuf => (h.reads f hmem buf hbuf).1, h.size f hmem, by omega, ?_⟩
  refine le_trans ?_ h.blocks
  have hmono : need (nblocks (16 * ((files ++ [f]).length + 2))) ≤
      need (nblocks (16 * ((files ++ f :: rest).length + 2))) := need_mono (nblocks_mono (by simp))
  simp only [Mkfs.blocks] at hmono ⊢
  simp only [List.map_append, List.sum_append, List.map_cons, List.sum_cons, List.map_nil,
    List.sum_nil]
  omega

/-- **The loop over the files.** -/
theorem Packed.addFiles : ∀ (rest : List HostFile) {files : List HostFile} {s : Mkfs},
    Packed files s → Fits (files ++ rest) →
    ∃ s', rest.foldlM (Mkfs.addFile ROOTINO) s = .ok s' ∧ Packed (files ++ rest) s'
  | [], files, s, h, _ => ⟨s, rfl, by rwa [List.append_nil]⟩
  | f :: rest, files, s, h, hfits => by
    obtain ⟨hname, hreads, hsize, hinodes, hblocks⟩ := hfits.addFile
    obtain ⟨s₁, hadd, h₁⟩ := h.addFile hname hreads hsize hinodes hblocks
    rw [List.append_cons] at hfits ⊢
    obtain ⟨s₂, hfold, h₂⟩ := Packed.addFiles rest h₁ hfits
    refine ⟨s₂, ?_, h₂⟩
    rw [List.foldlM_cons, hadd]
    exact hfold

/-! ## The root directory -/

theorem readsb_start : readsb start.image = sb := by
  decide +kernel

theorem readDinode_zero (k : ℕ) : readDinode (fun _ => 0) k = .zero := by
  have hshort : ∀ off, short (fun _ => 0) off = 0 := fun off => by rw [short, leGet_zero]; rfl
  have huint : ∀ off, uint (fun _ => 0) off = 0 := fun off => by rw [uint, leGet_zero]; rfl
  simp only [readDinode, hshort, huint]
  rfl

/-- The zeroed image. -/
theorem start_inv : start.Inv ∧ ∀ i < NINODES, start.dinode i = .zero := by
  have hdisk : ∀ {b : BlockNo}, 1 < b.toNat → start.disk b = fun _ => 0 := fun {b} hb => by
    have hne : b ≠ 1 := by
      rintro rfl
      exact absurd hb (by decide)
    simp only [start, wsect, Function.update_of_ne hne]
  have hzero : ∀ i < NINODES, start.dinode i = .zero := by
    intro i hi
    rw [dinode, dinodeAt, hdisk (sb_ok.one_lt_iblock hi), readDinode_zero]
  have hfresh : start.Fresh :=
    ⟨le_rfl, by decide, fun hb _ => hdisk (lt_of_lt_of_le (by decide) hb)⟩
  refine ⟨⟨hfresh, ?_⟩, hzero⟩
  refine (empty_consistent sb_ok readsb_start (fun c hc => ?_) (by decide) fun i hi => ?_).owned
  · exact bitAt_image hfresh.le hc
  · rw [dinodeAt_image hi]
    exact hzero i hi

/-- The root directory with its two entries. -/
theorem packed_nil : ∃ s₁ s₂ s₃, ialloc start T_DIR = .ok (ROOTINO, s₁) ∧
    iappend s₁ ROOTINO (dirent ROOTINO dot) = .ok s₂ ∧
    iappend s₂ ROOTINO (dirent ROOTINO dotdot) = .ok s₃ ∧ Packed [] s₃ := by
  obtain ⟨hinv, hzero⟩ := start_inv
  have hroot1 : ROOTINO < NINODES := by decide
  have hne : ∀ name, dirent ROOTINO name ≠ [] := fun name =>
    List.ne_nil_of_length_pos (by rw [length_dirent]; decide)
  obtain ⟨s₁, halloc, h₁⟩ := hinv.ialloc hroot1 (congrArg Dinode.type (hzero _ hroot1)) T_DIR
  have ht₁ : (s₁.dinode ROOTINO).type = T_DIR := h₁.type
  have hf₁ : s₁.file ROOTINO = [] := h₁.file
  have hlen₁ : (s₁.file ROOTINO ++ dirent ROOTINO dot).length = 16 := by
    rw [hf₁, List.nil_append, length_dirent]
  have hb₁ : s₁.freeblock = nmeta := h₁.freeblock
  obtain ⟨s₂, happ₁, h₂⟩ := h₁.inv.iappend hroot1 (by rw [ht₁]; decide) (by rw [ht₁]; decide)
    (hne dot) (by rw [hlen₁]; decide) (by rw [hlen₁, hf₁, hb₁]; decide)
  have ht₂ : (s₂.dinode ROOTINO).type = T_DIR := h₂.type.trans ht₁
  have hb₂ : s₂.freeblock = nmeta + 1 := by
    have hb := h₂.freeblock
    rw [hlen₁, hf₁, hb₁] at hb
    exact hb
  have hlen₂ : (s₂.file ROOTINO).length = 16 := by rw [h₂.file, hlen₁]
  have hlen₃ : (s₂.file ROOTINO ++ dirent ROOTINO dotdot).length = 32 := by
    rw [List.length_append, hlen₂, length_dirent]
  obtain ⟨s₃, happ₂, h₃⟩ := h₂.inv.iappend hroot1 (by rw [ht₂]; decide) (by rw [ht₂]; decide)
    (hne dotdot) (by rw [hlen₃]; decide) (by rw [hlen₃, hlen₂, hb₂]; decide)
  refine ⟨s₁, s₂, s₃, halloc, happ₁, happ₂, h₃.inv, ?_, ?_, ?_, ?_, fun k hk => ?_, fun {k f} hf => ?_,
    fun i hi hfree => ?_⟩
  · rw [h₃.freeinode, h₂.freeinode, h₁.freeinode]
    rfl
  · have hb := h₃.freeblock
    rw [hlen₃, hlen₂, hb₂] at hb
    exact Nat.add_right_cancel hb
  · rw [h₃.type, ht₂]
  · rw [h₃.file, h₂.file, hf₁]
    rfl
  · exact absurd hk (Nat.not_lt_zero k)
  · exact absurd (List.getElem?_eq_some_iff.1 hf).1 (Nat.not_lt_zero k)
  · rw [h₃.freeinode, h₂.freeinode, h₁.freeinode] at hfree
    have hi1 : i ≠ ROOTINO := by
      rintro rfl
      rcases hfree with h | h <;> exact absurd h (by decide)
    have hi2 : i ≠ start.freeinode := hi1
    rw [h₃.others.dinode i hi hi1, h₂.others.dinode i hi hi1, h₁.others.dinode i hi hi2, hzero i hi]
    rfl

/-- The inode of the root, with the size that `main` gives it. -/
def rounded (din : Dinode) : Dinode :=
  { din with size := .ofNat ((din.size.toNat / BSIZE + 1) * BSIZE) }

/-- **`main` packs every file into the image.** -/
theorem main_packed (hfits : Fits files) : ∃ s, Packed files s ∧
    main files = .ok (s.store ROOTINO (rounded (s.dinode ROOTINO))).image := by
  obtain ⟨s₁, s₂, s₃, halloc, happ₁, happ₂, hnil⟩ := packed_nil
  obtain ⟨s, hfold, h⟩ := hnil.addFiles files hfits
  refine ⟨s, h, ?_⟩
  have hroot1 : ROOTINO < NINODES := by decide
  have hused : s.freeblock < BSIZE * 8 := h.inv.fresh.le.trans_lt (by decide)
  simp only [main, halloc, happ₁, happ₂, hfold, rinode_eq _ hroot1, winode_eq _ hroot1, bind,
    Except.bind, ne_eq, not_true_eq_false, if_false, balloc, if_pos hused]
  rfl

end

end Mkfs

end Xv6

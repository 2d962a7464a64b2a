/-
  Loading a program: the structures of `elf.h`, `loaduvm` of `vm.c` and the
  first loop of `exec`.

  `exec` sees a file through `readi`; what that returns depends on the
  contents only (`readi_program`), so a program here is a string of bytes.
  `Program.layout` says what the program headers ask for, and the loop is
  proved to bring it about (`Loading.loadLoop`).  Virtual page 0 is never
  mapped, but nothing stops a segment from starting there: then `loaduvm` panics
  if there is no page table yet, and otherwise it follows an entry that is 0
  and writes to physical page 0.
-/
import Xv6.Fs.Content
import Xv6.Vm.Copyout

namespace Xv6

open Bytes Fallible

/-- The contents of a file; its size is a `uint`. -/
structure Program where
  bytes : List UInt8
  size_lt : bytes.length < 2 ^ 32

abbrev ELF_MAGIC : UInt32 := 0x464C457F

abbrev ELF_PROG_LOAD : UInt32 := 1

/-- The fields of the file header that `exec` uses. -/
structure Elfhdr where
  magic : UInt32
  entry : UInt64
  phoff : UInt64
  phnum : UInt16
  deriving DecidableEq

/-- The fields of a program header that `exec` uses. -/
structure Proghdr where
  type : UInt32
  off : UInt64
  vaddr : UInt64
  filesz : UInt64
  memsz : UInt64
  deriving DecidableEq

namespace Program

def size (f : Program) : UInt32 := .ofNat f.bytes.length

/-- `readi` on a file with these contents; `none` is -1. -/
def readi (f : Program) (off n : UInt32) : Option (List UInt8) :=
  if f.size < off ∨ off + n < off then none
  else
    let n := if f.size < off + n then f.size - off else n
    some ((f.bytes.drop off.toNat).take n.toNat)

/-- Bytes as a C structure of size `n`. -/
def struct (n : ℕ) (xs : List UInt8) : Fin n → UInt8 := fun i => xs.getD i 0

/-- The file header, if all of it can be read. -/
def elfhdr (f : Program) : Option Elfhdr :=
  match f.readi 0 64 with
  | none => none
  | some xs =>
    if xs.length ≠ 64 then none
    else some
      { magic := .ofNat (leGet 4 (struct 64 xs) 0)
        entry := .ofNat (leGet 8 (struct 64 xs) 24)
        phoff := .ofNat (leGet 8 (struct 64 xs) 32)
        phnum := .ofNat (leGet 2 (struct 64 xs) 56) }

/-- The program header at `off`, if all of it can be read. -/
def proghdr (f : Program) (off : UInt32) : Option Proghdr :=
  match f.readi off 56 with
  | none => none
  | some xs =>
    if xs.length ≠ 56 then none
    else some
      { type := .ofNat (leGet 4 (struct 56 xs) 0)
        off := .ofNat (leGet 8 (struct 56 xs) 8)
        vaddr := .ofNat (leGet 8 (struct 56 xs) 16)
        filesz := .ofNat (leGet 8 (struct 56 xs) 32)
        memsz := .ofNat (leGet 8 (struct 56 xs) 40) }

end Program

namespace Kmem

/-- `readi` into the page `p`: -1 unless it reads all `n` bytes. -/
def readPage (f : Program) (p : UInt64) (off n : UInt32) (k : Kmem) : Int32 × Kmem :=
  match f.readi off n with
  | none => (-1, k)
  | some xs => (if xs.length ≠ n.toNat then -1 else 0, k.setPage p (setBytes (k.mem p) 0 xs))

/-- One round of the loop of `loaduvm`. -/
def loadPage (pgdir addr : UInt64) (f : Program) (offset sz i : UInt32) (k : Kmem) :
    Except Crash (Int32 × Kmem) := do
  match ← walkpgdir pgdir (addr + i.toUInt64) false k with
  | (none, _) => .error .loaduvmExist
  | (some pte, k) =>
    let pa := pteAddr (k.get pte)
    let n := if sz - i < 4096 then sz - i else 4096
    .ok (k.readPage f (p2v pa) (offset + i) n)

/-- The loop of `loaduvm` with `m` rounds to go.  For `sz` above `0xFFFFF000` the `uint` `i` would wrap
around after the last one, but before the call `allocuvm` has to get a page for every round, and
there are fewer than `2 ^ 16`. -/
def loaduvmLoop (pgdir addr : UInt64) (f : Program) (offset sz : UInt32) :
    ℕ → UInt32 → Kmem → Except Crash (Int32 × Kmem)
  | 0, _, k => .ok (0, k)
  | m + 1, i, k => do
    let (res, k) ← loadPage pgdir addr f offset sz i k
    if res < 0 then .ok (-1, k) else loaduvmLoop pgdir addr f offset sz m (i + 4096) k

def loaduvm (pgdir addr : UInt64) (f : Program) (offset sz : UInt32) (k : Kmem) :
    Except Crash (Int32 × Kmem) :=
  if addr % PGSIZE ≠ 0 then .error .loaduvmAligned
  else loaduvmLoop pgdir addr f offset sz ((sz.toNat + 4095) / 4096) 0 k

/-- What the loop of `exec` does with the header of a segment: the new size of the image, or `none`
for a jump to `bad`. -/
def loadSegment (B : Boot) (f : Program) (pgdir : UInt64) (ph : Proghdr) (sz : UInt64) (k : Kmem) :
    Except Crash (Option UInt64 × Kmem) :=
  if ph.memsz < ph.filesz then .ok (none, k)
  else if ph.vaddr + ph.memsz < ph.vaddr then .ok (none, k)
  else do
    let (sz, k) ← k.allocuvm B pgdir sz (ph.vaddr + ph.memsz)
    if sz = 0 then .ok (none, k)
    else if ph.vaddr % PGSIZE ≠ 0 then .ok (none, k)
    else do
      let (res, k) ← k.loaduvm pgdir ph.vaddr f ph.off.toUInt32 ph.filesz.toUInt32
      if res < 0 then .ok (none, k) else .ok (some sz, k)

/-- The loop of `exec` over the program headers, with `n` of them to go. -/
def loadLoop (B : Boot) (f : Program) (pgdir : UInt64) :
    ℕ → UInt32 → UInt64 → Kmem → Except Crash (Option UInt64 × Kmem)
  | 0, _, sz, k => .ok (some sz, k)
  | n + 1, off, sz, k =>
    match f.proghdr off with
    | none => .ok (none, k)
    | some ph =>
      if ph.type ≠ ELF_PROG_LOAD then loadLoop B f pgdir n (off + 56) sz k
      else do
        match ← loadSegment B f pgdir ph sz k with
        | (none, k) => .ok (none, k)
        | (some sz, k) => loadLoop B f pgdir n (off + 56) sz k

end Kmem

/-! ## Reading a file -/

namespace Program

variable (f : Program) (off n : UInt32)

theorem toNat_size : f.size.toNat = f.bytes.length := by
  rw [size, UInt32.toNat_ofNat']
  exact Nat.mod_eq_of_lt f.size_lt

theorem readi_eq : f.readi off n =
    if off.toNat ≤ f.bytes.length ∧ off.toNat + n.toNat < 2 ^ 32 then
      some ((f.bytes.drop off.toNat).take n.toNat) else none := by
  have hsize := f.toNat_size
  have hoff := off.toNat_lt
  have hn := n.toNat_lt
  by_cases h : off.toNat ≤ f.bytes.length ∧ off.toNat + n.toNat < 2 ^ 32
  · have hadd : (off + n).toNat = off.toNat + n.toNat := by
      rw [UInt32.toNat_add]
      omega
    rw [if_pos h, readi, if_neg]
    · refine congrArg some ?_
      by_cases hbig : f.size < off + n
      · have hsub : (f.size - off).toNat = f.bytes.length - off.toNat := by
          rw [UInt32.toNat_sub_of_le _ _ (UInt32.le_iff_toNat_le.2 (by omega)), hsize]
        rw [if_pos hbig, hsub]
        rw [UInt32.lt_iff_toNat_lt, hadd, hsize] at hbig
        have hlen : (f.bytes.drop off.toNat).length = f.bytes.length - off.toNat :=
          List.length_drop
        rw [List.take_of_length_le hlen.le, List.take_of_length_le (by omega)]
      · rw [if_neg hbig]
    · rw [UInt32.lt_iff_toNat_lt, UInt32.lt_iff_toNat_lt, hadd, hsize]
      omega
  · rw [if_neg h, readi, if_pos]
    rw [UInt32.lt_iff_toNat_lt, UInt32.lt_iff_toNat_lt, UInt32.toNat_add, hsize]
    omega

/-- All that is asked for is read if the file is long enough. -/
theorem readi_full (h : off.toNat + n.toNat ≤ f.bytes.length) :
    f.readi off n = some ((f.bytes.drop off.toNat).take n.toNat) ∧
      ((f.bytes.drop off.toNat).take n.toNat).length = n.toNat := by
  have hlt := f.size_lt
  refine ⟨by rw [readi_eq, if_pos (by omega)], ?_⟩
  rw [List.length_take, List.length_drop]
  omega

theorem readi_short {xs : List UInt8} (h : f.bytes.length < off.toNat + n.toNat)
    (hxs : f.readi off n = some xs) : xs.length ≠ n.toNat := by
  rw [readi_eq] at hxs
  split_ifs at hxs with hin
  cases hxs
  rw [List.length_take, List.length_drop]
  omega

end Program

/-- The contents of the file of an inode. -/
def Program.ofInode (di : Dinode) (d : Disk) : Program where
  bytes := contents di d
  size_lt := by
    rw [length_contents]
    exact di.size.toNat_lt

/-- **The file system behind it**: `readi` on an inode depends on the contents only. -/
theorem readi_program {F : Prop} {sb : Superblock} {d : Disk} {ip : Inode} (dev : Devsw)
    (h : Owned F sb d) (hi : ip.inum < sb.ninodes) (ht : ip.di.type ≠ 0)
    (hdi : dinodeAt sb d ip.inum = ip.di) (hdev : ip.di.type ≠ T_DEV) (off n : UInt32) :
    readi sb dev d ip off.toNat n.toNat = .ok ((Program.ofInode ip.di d).readi off n, ip, d) := by
  have hlen : (Program.ofInode ip.di d).bytes.length = ip.di.size.toNat := length_contents _ _
  have hoff := off.toNat_lt
  have hn := n.toNat_lt
  rw [Program.readi_eq, hlen]
  by_cases hin : off.toNat ≤ ip.di.size.toNat ∧ off.toNat + n.toNat < 2 ^ 32
  · rw [if_pos hin, readi_contents dev h hi ht hdi hdev hin.1 hin.2]
    rfl
  · rw [if_neg hin, readi, if_neg hdev, if_pos (by omega)]

/-! ## What a file asks for -/

/-- The image while it is being loaded: its size, the bytes from address `PGSIZE` on, and whether a
segment with bytes in the file has started at address 0. -/
structure Loaded where
  sz : UInt64
  data : ℕ → UInt8
  zero : Bool

/-- The image before the first segment. -/
def Loaded.start : Loaded := ⟨PGSIZE, fun _ => 0, false⟩

/-- How loading ends: with a jump to `bad`, with the panic of `loaduvm`, or well. -/
inductive Layout
  | bad (st : Loaded)
  | crash (st : Loaded)
  | done (st : Loaded)

/-- The image at that point. -/
def Layout.state : Layout → Loaded
  | .bad st | .crash st | .done st => st

namespace Program

/-- The bytes of the image after a segment has been copied to it. -/
def put (f : Program) (ph : Proghdr) (data : ℕ → UInt8) (a : ℕ) : UInt8 :=
  if ph.vaddr.toNat ≤ a ∧ a < ph.vaddr.toNat + ph.filesz.toUInt32.toNat then
    f.bytes.getD (ph.off.toUInt32.toNat + (a - ph.vaddr.toNat)) 0
  else data a

/-- Copying a segment to an image that is large enough. -/
def copy (f : Program) (ph : Proghdr) (st : Loaded) : Layout :=
  if ph.vaddr % PGSIZE ≠ 0 then .bad st
  else if ph.filesz.toUInt32 = 0 then .done st
  else
    let st := { st with zero := st.zero || ph.vaddr == 0 }
    if ph.vaddr = 0 ∧ st.sz ≤ PGSIZE then .crash st
    else if f.bytes.length < ph.off.toUInt32.toNat + ph.filesz.toUInt32.toNat then .bad st
    else .done { st with data := f.put ph st.data }

/-- The effect of one segment. -/
def segment (f : Program) (ph : Proghdr) (st : Loaded) : Layout :=
  if ph.memsz < ph.filesz ∨ ph.vaddr + ph.memsz < ph.vaddr ∨ KERNBASE ≤ ph.vaddr + ph.memsz then
    .bad st
  else f.copy ph { st with
    sz := if ph.vaddr + ph.memsz < st.sz then st.sz else ph.vaddr + ph.memsz }

theorem sz_copy (f : Program) (ph : Proghdr) (st : Loaded) : (f.copy ph st).state.sz = st.sz := by
  rw [copy]
  dsimp only
  split_ifs <;> rfl

theorem sz_le_segment (f : Program) (ph : Proghdr) (st : Loaded) :
    st.sz ≤ (f.segment ph st).state.sz := by
  rw [segment]
  split_ifs with hbad hlt
  · exact UInt64.le_refl _
  · rw [sz_copy]
    exact UInt64.le_refl _
  · rw [sz_copy]
    exact UInt64.not_lt.1 hlt

/-- The effect of `n` program headers from `off` on. -/
def layout (f : Program) : ℕ → UInt32 → Loaded → Layout
  | 0, _, st => .done st
  | n + 1, off, st =>
    match f.proghdr off with
    | none => .bad st
    | some ph =>
      if ph.type ≠ ELF_PROG_LOAD then f.layout n (off + 56) st
      else match f.segment ph st with
        | .bad st => .bad st
        | .crash st => .crash st
        | .done st => f.layout n (off + 56) st

theorem sz_le_layout (f : Program) : ∀ (n : ℕ) (off : UInt32) (st : Loaded),
    st.sz ≤ (f.layout n off st).state.sz
  | 0, _, _ => UInt64.le_refl _
  | n + 1, off, st => by
    rw [layout]
    cases f.proghdr off with
    | none => exact UInt64.le_refl _
    | some ph =>
      dsimp only
      split_ifs with hload
      · exact f.sz_le_layout n _ st
      · have hseg := f.sz_le_segment ph st
        cases hs : f.segment ph st with
        | bad st' => rwa [hs] at hseg
        | crash st' => rwa [hs] at hseg
        | done st' =>
          rw [hs] at hseg
          exact UInt64.le_trans hseg (f.sz_le_layout n _ st')

end Program

namespace Kmem

variable {B : Boot} {k₀ k k' : Kmem} {l₀ l : List UInt64} {r : UInt64} {z : Bool} {v w : ℕ}
  {f : Program} {st : Loaded}

/-! ## Page tables under construction -/

/-- A page table is being built from the pages `l₀` that were free in `k₀`.  Nothing else has
changed, but for physical page 0 if a segment started there. -/
structure Building (B : Boot) (k₀ : Kmem) (l₀ : List UInt64) (r : UInt64) (z : Bool) (k : Kmem)
    (l : List UInt64) : Prop where
  space : Space B k l r (· ∈ l₀)
  mem : ∀ q, q ∉ l₀ → (q = p2v 0 → z = false) → k.mem q = k₀.mem q
  root : ∀ i, 256 ≤ i → i < 512 →
    k.word r i = if i = 256 then v2p B.kpdpt ||| PTE_P ||| PTE_W else 0

/-- The image so far is `st`. -/
structure Loading (B : Boot) (k₀ : Kmem) (l₀ : List UInt64) (r : UInt64) (st : Loaded) (k : Kmem)
    (l : List UInt64) : Prop extends Building B k₀ l₀ r st.zero k l where
  spans : Spans k r st.sz
  flags : ∀ v, 1 ≤ v → v < npages st.sz → pteFlags (pte k r v) = 7
  low : pte k r 0 = 0
  fresh : st.sz ≤ PGSIZE → node k r 3 0 = none
  page : PGSIZE ≤ st.sz
  data : ∀ a, 4096 ≤ a → a < 4096 * npages st.sz → ubyte k r a = some (st.data a)
  tail : ∀ a, 4096 * npages st.sz ≤ a → st.data a = 0

theorem zero_not_valid : ¬ Valid B (p2v 0) := fun h => absurd h.toNat_v2p.2 (by decide)

theorem Building.zero_not_mem (h : Building B k₀ l₀ r z k l) : p2v 0 ∉ l₀ := fun hm =>
  zero_not_valid (h.space.valid _ hm)

theorem Building.mono {z' : Bool} (h : Building B k₀ l₀ r z k l) (hz : z' = false → z = false) :
    Building B k₀ l₀ r z' k l where
  space := h.space
  mem q hq h0 := h.mem q hq fun he => hz (h0 he)
  root := h.root

theorem Building.keeps (h : Building B k₀ l₀ r z k l) (hs : Space B k' l r (· ∈ l₀))
    (hk : Keeps (· ∈ l₀) r k k') : Building B k₀ l₀ r z k' l where
  space := hs
  mem q hq hz := (hk.mem q hq).trans (h.mem q hq hz)
  root i hi hi' := (hk.high i hi hi').trans (h.root i hi hi')

/-- **Writing through an entry**: that of a user page, or the one of page 0, which is 0. -/
theorem Building.store (h : Building B k₀ l₀ r z k l)
    (hm : (userPage k r w).isSome ∨ w = 0 ∧ pte k r 0 = 0) (pg : Page) :
    Building B k₀ l₀ r (z || w == 0) (k.setPage (p2v (pteAddr (pte k r w))) pg) l ∧
      (∀ d ≤ 3, ∀ x, node (k.setPage (p2v (pteAddr (pte k r w))) pg) r d x = node k r d x) ∧
      (∀ v, pte (k.setPage (p2v (pteAddr (pte k r w))) pg) r v = pte k r v) ∧
      ∀ v, image (k.setPage (p2v (pteAddr (pte k r w))) pg) r v =
        if v = w then (image k r w).map fun i => (i.1, pg) else image k r v := by
  rcases hm with hm | ⟨rfl, hpte⟩
  · obtain ⟨p, hp⟩ := Option.isSome_iff_exists.1 hm
    obtain ⟨-, hpe, -⟩ := userPage_valid h.space hp
    obtain ⟨hs, hk, hn, hpte, himg⟩ := h.space.write hp pg
    have himg0 : (image k r w).map (fun i => (i.1, pg)) = some (pteFlags (pte k r w), pg) := by
      rw [image, hp]
      rfl
    rw [hpe, himg0]
    refine ⟨⟨hs, fun q hq hz => ?_, fun i hi hi' => ?_⟩, hn, hpte, himg⟩
    · rw [hk.mem q hq, h.mem q hq fun h0 => (Bool.or_eq_false_iff.1 (hz h0)).1]
    · rw [hk.high i hi hi', h.root i hi hi']
  · -- the page of the entry is physical page 0
    have h0 := h.zero_not_mem
    have hmem : ∀ q, q ∈ l₀ → (k.setPage (p2v 0) pg).mem q = k.mem q := fun q hq =>
      mem_setPage_of_ne _ _ (by
        rintro rfl
        exact h0 hq)
    obtain ⟨-, hn, hpte', hword⟩ := h.space.tree.congr (k.setPage (p2v 0) pg) rfl fun q hq =>
      hmem q hq.1
    have hnone : image k r 0 = none := image_eq_none.2 (userPage_eq_none.2 (by rw [hpte]; rfl))
    rw [hpte, show pteAddr 0 = 0 from rfl]
    refine ⟨⟨h.space.congr rfl hmem, fun q hq hz => ?_, fun i hi hi' => ?_⟩, hn, hpte', fun v => ?_⟩
    · have hq0 : q ≠ p2v 0 := fun he => by simpa using hz he
      rw [mem_setPage_of_ne _ _ hq0, h.mem q hq fun he => absurd he hq0]
    · rw [hword, h.root i hi hi']
    · have hsame : image (k.setPage (p2v 0) pg) r v = image k r v :=
        image_congr (hpte' v) fun p hp => hmem p (h.space.mem hp)
      rw [hsame]
      split_ifs with hv
      · rw [hv, hnone]
        rfl
      · rfl

/-- **A round of `loaduvm`** on page `w`. -/
theorem Building.loadPage (h : Building B k₀ l₀ r z k l) {addr : UInt64} {i n : UInt32}
    (f : Program) (offset sz : UInt32) (ha : (addr + i.toUInt64).toNat = 4096 * w) (hw : w < 2 ^ 35)
    (hm : (userPage k r w).isSome ∨ w = 0 ∧ pte k r 0 = 0)
    (ht : (node k r 3 (w / 512)).isSome) (hn : n = if sz - i < 4096 then sz - i else 4096) :
    ∃ res k', k.loadPage r addr f offset sz i = .ok (res, k') ∧
      Building B k₀ l₀ r (z || w == 0) k' l ∧ (∀ d ≤ 3, ∀ x, node k' r d x = node k r d x) ∧
      (∀ v, pte k' r v = pte k r v) ∧
      if (offset + i).toNat + n.toNat ≤ f.bytes.length then
        res = 0 ∧ ∀ a, 4096 ≤ a → ubyte k' r a =
          if 4096 * w ≤ a ∧ a < 4096 * w + n.toNat then
            f.bytes[(offset + i).toNat + (a - 4096 * w)]? else ubyte k r a
      else res = -1 := by
  obtain ⟨t, ht⟩ := Option.isSome_iff_exists.1 ht
  have hav : (addr + i.toUInt64).toNat / 4096 = w := by omega
  have hn4 : n.toNat ≤ 4096 := by
    rw [hn]
    split_ifs with hlt
    · have := UInt32.lt_iff_toNat_lt.1 hlt
      rw [show (4096 : UInt32).toNat = 4096 from rfl] at this
      omega
    · rfl
  have hok : k.loadPage r addr f offset sz i =
      .ok (k.readPage f (p2v (pteAddr (pte k r w))) (offset + i) n) := by
    rw [Kmem.loadPage, walkpgdir_find (by omega), hav, ht, hn, ← get_slot ht]
    rfl
  have hz : Building B k₀ l₀ r (z || w == 0) k l := h.mono fun hz => (Bool.or_eq_false_iff.1 hz).1
  rw [hok, readPage]
  by_cases hfull : (offset + i).toNat + n.toNat ≤ f.bytes.length
  · obtain ⟨hread, hlen⟩ := f.readi_full _ _ hfull
    obtain ⟨hb, hnode, hpte, himg⟩ := h.store hm (setBytes (k.mem (p2v (pteAddr (pte k r w)))) 0
      ((f.bytes.drop (offset + i).toNat).take n.toNat))
    rw [hread]
    refine ⟨0, _, by simp only [ne_eq, hlen, not_true_eq_false, if_false], hb, hnode, hpte, ?_⟩
    rw [if_pos hfull]
    refine ⟨rfl, fun a ha4 => ?_⟩
    by_cases hmap : (userPage k r w).isSome
    · obtain ⟨p, hp⟩ := Option.isSome_iff_exists.1 hmap
      obtain ⟨-, hpe, -⟩ := userPage_valid h.space hp
      have hlen' : n.toNat ≤ (f.bytes.drop (offset + i).toNat).length := by
        rw [List.length_drop]
        omega
      have hfit : n.toNat ≤ 4096 - (addr + i.toUInt64).toNat % 4096 := by omega
      rw [ubyte_round hfit hlen' (by rwa [hav, image_isSome]) fun v => ?_, ha, List.getElem?_drop]
      rw [himg, hav, show (addr + i.toUInt64).toNat % 4096 = 0 by omega]
      by_cases hv : v = w
      · rw [if_pos hv, if_pos hv, hv, image, hp, hpe]
        rfl
      · rw [if_neg hv, if_neg hv]
    · -- page 0
      obtain ⟨rfl, -⟩ := hm.resolve_left hmap
      rw [if_neg (by omega), ubyte, ubyte, himg, if_neg (by omega)]
  · cases hread : f.readi (offset + i) n with
    | none =>
      refine ⟨-1, k, rfl, hz, fun _ _ _ => rfl, fun _ => rfl, ?_⟩
      rw [if_neg hfull]
    | some xs =>
      obtain ⟨hb, hnode, hpte, -⟩ := h.store hm (setBytes (k.mem (p2v (pteAddr (pte k r w)))) 0 xs)
      refine ⟨-1, _, ?_, hb, hnode, hpte, ?_⟩
      · simp only [if_pos (f.readi_short _ _ (Nat.lt_of_not_le hfull) hread)]
      · rw [if_neg hfull]

/-- **The loop of `loaduvm`** from page `v + j` on. -/
theorem Building.loaduvmLoop (f : Program) {addr : UInt64} (offset sz : UInt32)
    (hv : addr.toNat = 4096 * v) : ∀ (m j : ℕ) {i : UInt32} {z : Bool} {k : Kmem},
    Building B k₀ l₀ r z k l → m = (sz.toNat + 4095) / 4096 - j →
    (0 < m → i.toNat = 4096 * j ∧ offset.toNat + 4096 * j < 2 ^ 32) →
    (∀ w, v + j ≤ w → w < v + j + m → w < 2 ^ 35 ∧
      ((userPage k r w).isSome ∨ w = 0 ∧ pte k r 0 = 0) ∧ (node k r 3 (w / 512)).isSome) →
    ∃ res k', k.loaduvmLoop r addr f offset sz m i = .ok (res, k') ∧
      Building B k₀ l₀ r (z || v + j == 0) k' l ∧ (∀ d ≤ 3, ∀ x, node k' r d x = node k r d x) ∧
      (∀ v, pte k' r v = pte k r v) ∧
      if m = 0 ∨ offset.toNat + sz.toNat ≤ f.bytes.length then
        res = 0 ∧ ∀ a, 4096 ≤ a → ubyte k' r a =
          if 4096 * (v + j) ≤ a ∧ a < 4096 * v + sz.toNat then
            f.bytes[offset.toNat + (a - 4096 * v)]? else ubyte k r a
      else res = -1
  | 0, j, i, z, k, h, hm, _, _ => by
    refine ⟨0, k, rfl, h.mono fun hz => (Bool.or_eq_false_iff.1 hz).1, fun _ _ _ => rfl,
      fun _ => rfl, ?_⟩
    rw [if_pos (.inl rfl)]
    refine ⟨rfl, fun a _ => ?_⟩
    rw [if_neg (by omega)]
  | m + 1, j, i, z, k, h, hm, hi, hpages => by
    obtain ⟨hi, hoff⟩ := hi (by omega)
    have hsz := sz.toNat_lt
    have hflt := f.size_lt
    obtain ⟨hw, hmap, ht⟩ := hpages (v + j) le_rfl (by omega)
    have ha : (addr + i.toUInt64).toNat = 4096 * (v + j) := by
      rw [UInt64.toNat_add, UInt32.toNat_toUInt64, hv, hi]
      omega
    have hoi : (offset + i).toNat = offset.toNat + 4096 * j := by
      rw [UInt32.toNat_add, hi]
      omega
    have hsub : (sz - i).toNat = sz.toNat - 4096 * j := by
      rw [UInt32.toNat_sub_of_le _ _ (UInt32.le_iff_toNat_le.2 (by omega)), hi]
    obtain ⟨res, k₁, hok, hb, hn₁, hp₁, hres⟩ := h.loadPage f offset sz ha hw hmap ht rfl
    -- the size of the chunk
    have hlen : (if sz - i < 4096 then sz - i else 4096).toNat = min 4096 (sz.toNat - 4096 * j) := by
      split_ifs with hlt
      · rw [UInt32.lt_iff_toNat_lt, hsub, show (4096 : UInt32).toNat = 4096 from rfl] at hlt
        omega
      · rw [UInt32.lt_iff_toNat_lt, hsub, show (4096 : UInt32).toNat = 4096 from rfl] at hlt
        rw [show (4096 : UInt32).toNat = 4096 from rfl]
        omega
    rw [hlen, hoi] at hres
    rw [Kmem.loaduvmLoop, hok]
    by_cases hfull : offset.toNat + 4096 * j + min 4096 (sz.toNat - 4096 * j) ≤ f.bytes.length
    · rw [if_pos hfull] at hres
      obtain ⟨rfl, hbytes⟩ := hres
      have hnext : 0 < m → (i + 4096).toNat = 4096 * (j + 1) ∧
          offset.toNat + 4096 * (j + 1) < 2 ^ 32 := by
        intro hm0
        rw [UInt32.toNat_add, hi, show (4096 : UInt32).toNat = 4096 from rfl]
        omega
      obtain ⟨res, k', hok', hb', hn', hp', hres'⟩ := Building.loaduvmLoop f offset sz hv m (j + 1)
        hb (by omega) hnext fun w h1 h2 => by
          rw [hn₁ 3 le_rfl, hp₁, userPage_congr (hp₁ w)]
          exact hpages w (by omega) (by omega)
      refine ⟨res, k', hok', hb'.mono ?_, fun d hd x => (hn' d hd x).trans (hn₁ d hd x),
        fun v => (hp' v).trans (hp₁ v), ?_⟩
      · intro hz
        rw [hz]
        simp
      · by_cases hend : offset.toNat + sz.toNat ≤ f.bytes.length
        · rw [if_pos (.inr hend)] at hres' ⊢
          refine ⟨hres'.1, fun a ha4 => ?_⟩
          rw [hres'.2 a ha4, hbytes a ha4]
          by_cases h1 : 4096 * (v + (j + 1)) ≤ a ∧ a < 4096 * v + sz.toNat
          · rw [if_pos h1, if_pos (by omega)]
          · rw [if_neg h1]
            by_cases h2 : 4096 * (v + j) ≤ a ∧
                a < 4096 * (v + j) + min 4096 (sz.toNat - 4096 * j)
            · rw [if_pos h2, if_pos (by omega), show offset.toNat + 4096 * j + (a - 4096 * (v + j)) =
                offset.toNat + (a - 4096 * v) by omega]
            · rw [if_neg h2, if_neg (by omega)]
        · rw [if_neg (by omega)] at hres' ⊢
          exact hres'
    · rw [if_neg hfull] at hres
      subst hres
      refine ⟨-1, k₁, rfl, hb, hn₁, hp₁, ?_⟩
      rw [if_neg (by omega)]

/-- `loaduvm` panics where there is no page table for page 0. -/
theorem loaduvm_zero (f : Program) {offset sz : UInt32} (hsz : sz ≠ 0) (hn : node k r 3 0 = none) :
    k.loaduvm r 0 f offset sz = .error .loaduvmExist := by
  have hpos : 0 < sz.toNat := Nat.pos_of_ne_zero fun h0 => hsz (UInt32.toNat_inj.1 h0)
  obtain ⟨m, hm⟩ : ∃ m, (sz.toNat + 4095) / 4096 = m + 1 := ⟨_, (Nat.succ_pred_eq_of_pos
    (Nat.div_pos (by omega) (by decide))).symm⟩
  rw [loaduvm, if_neg (by decide), hm, Kmem.loaduvmLoop, Kmem.loadPage,
    walkpgdir_find (show (0 + (0 : UInt32).toUInt64).toNat < 2 ^ 47 by decide)]
  rw [show node k r 3 ((0 + (0 : UInt32).toUInt64).toNat / 4096 / 512) = none from hn]
  rfl

/-! ## Segments -/

theorem Loading.npages_pos (h : Loading B k₀ l₀ r st k l) : 1 ≤ npages st.sz := by
  have := UInt64.le_iff_toNat_le.1 h.page
  rw [show PGSIZE.toNat = 4096 from rfl] at this
  rw [npages]
  omega

/-- There is a page table for page 0 once a page is mapped. -/
theorem Loading.table (h : Loading B k₀ l₀ r st k l) (hsz : ¬ st.sz ≤ PGSIZE) :
    (node k r 3 0).isSome := by
  rw [UInt64.le_iff_toNat_le, show PGSIZE.toNat = 4096 from rfl] at hsz
  obtain ⟨t, ht⟩ := table_of_mapped ((h.spans 1).2 ⟨le_rfl, by rw [npages]; omega⟩)
  rw [show 1 / 512 = 0 from rfl] at ht
  rw [ht]
  rfl

/-- **The image grows.** -/
theorem Loading.allocuvm (h : Loading B k₀ l₀ r st k l) {newsz : UInt64} (hlt : newsz < KERNBASE) :
    Spends .outOfMemory (fun _ => False)
      (4 * (npages (if newsz < st.sz then st.sz else newsz) - npages st.sz)) l.length
      (k.allocuvm B r st.sz newsz) fun (res, k') n => ∃ l', l'.length = n ∧
        res = (if newsz < st.sz then st.sz else newsz) ∧
        Loading B k₀ l₀ r { st with sz := if newsz < st.sz then st.sz else newsz } k' l' := by
  have hltn := UInt64.lt_iff_toNat_lt.1 hlt
  rw [show KERNBASE.toNat = 0xFFFF800000000000 from rfl] at hltn
  by_cases hsmall : newsz < st.sz
  · rw [if_pos hsmall, Nat.sub_self, Kmem.allocuvm, if_neg (UInt64.not_le.2 hlt), if_pos hsmall]
    exact .ok ⟨l, rfl, rfl, h⟩
  rw [if_neg hsmall]
  by_cases heq : newsz = st.sz
  · subst heq
    have hrounds := (rounds_eq le_rfl (a := st.sz) (b := st.sz) (by omega)).2
    rw [Nat.sub_self] at hrounds ⊢
    rw [Kmem.allocuvm, if_neg (UInt64.not_le.2 hlt), if_neg hsmall]
    change Spends _ _ _ _ (k.allocLoop B r st.sz st.sz (rounds (pgroundup st.sz) st.sz) _) _
    rw [hrounds]
    exact .ok ⟨l, rfl, rfl, h⟩
  have hle := UInt64.not_lt.1 hsmall
  have hlen := UInt64.le_iff_toNat_le.1 hle
  have hnp : npages st.sz ≤ npages newsz := Nat.div_le_div_right (by omega)
  have hpos := h.npages_pos
  refine (h.space.allocuvm st.sz newsz hle hlt (h.spans.room _)).mono le_rfl ?_ ?_
  · rintro e ⟨-, w, h1, h2, hw⟩
    have := ((h.spans w).1 hw).2
    omega
  rintro ⟨res, k'⟩ n ⟨l', rfl, rfl, hs, hk, hpte, himg⟩
  refine ⟨l', rfl, rfl, ⟨hs, fun q hq hz => (hk.mem q hq).trans (h.mem q hq hz), fun i hi hi' =>
    (hk.high i hi hi').trans (h.root i hi hi')⟩, fun v => ?_, fun v h1 h2 => ?_, ?_, fun hp => ?_,
    UInt64.le_trans h.page hle, fun a h1 h2 => ?_, fun a ha => h.tail a ?_⟩
  · change _ ↔ 1 ≤ v ∧ v < npages res
    have hv := h.spans v
    rw [← image_isSome] at hv ⊢
    rw [himg]
    split_ifs with hin
    · exact iff_of_true rfl (by omega)
    · rw [hv]
      omega
  · change v < npages res at h2
    by_cases hin : npages st.sz ≤ v
    · have hi := himg v
      rw [if_pos ⟨hin, h2⟩, image, Option.map_eq_some_iff] at hi
      obtain ⟨p, -, hp⟩ := hi
      exact (Prod.mk.inj hp).1
    · rw [hpte v (by omega)]
      exact h.flags v h1 (by omega)
  · rw [hpte 0 (by omega), h.low]
  · have hpn := UInt64.le_iff_toNat_le.1 h.page
    have hrn : res.toNat ≤ PGSIZE.toNat := UInt64.le_iff_toNat_le.1 hp
    exact absurd (UInt64.toNat_inj.1 (by omega)) heq
  · change a < 4096 * npages res at h2
    rw [ubyte, himg]
    by_cases hin : npages st.sz ≤ a / 4096
    · rw [if_pos ⟨hin, by omega⟩, h.tail a (by omega)]
      simp [byte]
    · rw [if_neg (by omega)]
      exact h.data a h1 (by omega)
  · change 4096 * npages res ≤ a at ha
    omega

/-- **A segment is copied** to pages that are mapped, or else to physical page 0. -/
theorem Loading.loaduvm (h : Loading B k₀ l₀ r st k l) (f : Program) (ph : Proghdr)
    (halign : ph.vaddr % PGSIZE = 0)
    (hend : ph.vaddr.toNat + ph.filesz.toUInt32.toNat ≤ st.sz.toNat)
    (hne : ph.filesz.toUInt32 ≠ 0) (htab : ¬ (ph.vaddr = 0 ∧ st.sz ≤ PGSIZE)) :
    ∃ res k', k.loaduvm r ph.vaddr f ph.off.toUInt32 ph.filesz.toUInt32 = .ok (res, k') ∧
      if f.bytes.length < ph.off.toUInt32.toNat + ph.filesz.toUInt32.toNat then
        res = -1 ∧ Building B k₀ l₀ r (st.zero || ph.vaddr == 0) k' l
      else res = 0 ∧ Loading B k₀ l₀ r
        { st with data := f.put ph st.data, zero := st.zero || ph.vaddr == 0 } k' l := by
  have hmod : ph.vaddr.toNat % 4096 = 0 := by
    have := congrArg UInt64.toNat halign
    rwa [UInt64.toNat_mod] at this
  have hv : ph.vaddr.toNat = 4096 * (ph.vaddr.toNat / 4096) := by omega
  have hpos : 0 < ph.filesz.toUInt32.toNat := Nat.pos_of_ne_zero fun h0 =>
    hne (UInt32.toNat_inj.1 h0)
  have hnp := h.spans.npages_le h.space
  have hpages : npages st.sz = (st.sz.toNat + 4095) / 4096 := rfl
  have hzero : (ph.vaddr.toNat / 4096 + 0 == 0) = (ph.vaddr == 0) := by
    rw [Bool.eq_iff_iff, beq_iff_eq, beq_iff_eq, ← UInt64.toNat_inj, Nat.add_zero,
      show (0 : UInt64).toNat = 0 from rfl]
    omega
  obtain ⟨res, k', hok, hb, hn, hp, hres⟩ := h.loaduvmLoop f ph.off.toUInt32
    ph.filesz.toUInt32 (i := 0) hv ((ph.filesz.toUInt32.toNat + 4095) / 4096) 0 rfl
    (fun _ => ⟨rfl, ph.off.toUInt32.toNat_lt⟩) fun w h1 h2 => by
      refine ⟨by omega, ?_, ?_⟩
      · by_cases hw : w = 0
        · exact .inr ⟨hw, h.low⟩
        · exact .inl ((h.spans w).2 (by omega))
      · by_cases hw : w = 0
        · subst hw
          refine h.table fun hsz => htab ⟨UInt64.toNat_inj.1 ?_, hsz⟩
          rw [show (0 : UInt64).toNat = 0 from rfl]
          omega
        · obtain ⟨t, ht⟩ := table_of_mapped ((h.spans w).2 (by omega))
          rw [ht]
          rfl
  rw [hzero] at hb
  refine ⟨res, k', by rw [Kmem.loaduvm, if_neg (not_not.2 halign)]; exact hok, ?_⟩
  by_cases hfull : ph.off.toUInt32.toNat + ph.filesz.toUInt32.toNat ≤ f.bytes.length
  · rw [if_pos (.inr hfull)] at hres
    obtain ⟨rfl, hbytes⟩ := hres
    rw [if_neg (Nat.not_lt.2 hfull)]
    refine ⟨rfl, hb, fun v => ?_, fun v h1 h2 => ?_, ?_, fun hsz => ?_, h.page, fun a h1 h2 => ?_,
      fun a ha => ?_⟩
    · rw [userPage_congr (hp v)]
      exact h.spans v
    · rw [hp]
      exact h.flags v h1 h2
    · rw [hp, h.low]
    · rw [hn 3 le_rfl]
      exact h.fresh hsz
    · rw [hbytes a h1, Nat.add_zero, ← hv]
      change _ = some (f.put ph st.data a)
      rw [Program.put]
      by_cases hin : ph.vaddr.toNat ≤ a ∧ a < ph.vaddr.toNat + ph.filesz.toUInt32.toNat
      · rw [if_pos hin, if_pos hin, List.getD_eq_getElem?_getD,
          List.getElem?_eq_getElem (by omega)]
        rfl
      · rw [if_neg hin, if_neg hin]
        exact h.data a h1 h2
    · change 4096 * npages st.sz ≤ a at ha
      change f.put ph st.data a = 0
      rw [Program.put, if_neg (by omega)]
      exact h.tail a ha
  · rw [if_neg (by omega)] at hres
    rw [if_pos (Nat.lt_of_not_le hfull)]
    exact ⟨hres, hb⟩

/-- The state that goes with an outcome: a jump to `bad`, or a size. -/
def Follows (B : Boot) (k₀ : Kmem) (l₀ : List UInt64) (r : UInt64) (out : Layout)
    (res : Option UInt64) (k : Kmem) (l : List UInt64) : Prop :=
  match out, res with
  | .bad st, none => Building B k₀ l₀ r st.zero k l
  | .done st, some sz => sz = st.sz ∧ Loading B k₀ l₀ r st k l
  | _, _ => False

/-- A segment lies in the image that has grown for it. -/
theorem segment_le {ph : Proghdr} (hle : ¬ ph.memsz < ph.filesz)
    (hover : ¬ ph.vaddr + ph.memsz < ph.vaddr) (sz : UInt64) :
    ph.vaddr.toNat + ph.filesz.toUInt32.toNat ≤
      (if ph.vaddr + ph.memsz < sz then sz else ph.vaddr + ph.memsz).toNat := by
  have h1 : ph.filesz.toUInt32.toNat ≤ ph.filesz.toNat := by
    rw [UInt64.toNat_toUInt32]
    exact Nat.mod_le _ _
  have h2 := UInt64.le_iff_toNat_le.1 (UInt64.not_lt.1 hle)
  have h3 := UInt64.le_iff_toNat_le.1 (UInt64.not_lt.1 hover)
  have h4 : (ph.vaddr + ph.memsz).toNat = ph.vaddr.toNat + ph.memsz.toNat := by
    have := ph.vaddr.toNat_lt
    have := ph.memsz.toNat_lt
    rw [UInt64.toNat_add] at h3 ⊢
    omega
  split_ifs with h5
  · have := UInt64.lt_iff_toNat_lt.1 h5
    omega
  · omega

/-- **One segment.** -/
theorem Loading.loadSegment (h : Loading B k₀ l₀ r st k l) (f : Program) (ph : Proghdr) :
    Spends .outOfMemory (fun e => e = .loaduvmExist ∧ ∃ st', f.segment ph st = .crash st')
      (4 * (npages (f.segment ph st).state.sz - npages st.sz)) l.length
      (k.loadSegment B f r ph st.sz) fun (res, k') n => ∃ l', l'.length = n ∧
        Follows B k₀ l₀ r (f.segment ph st) res k' l' := by
  by_cases hbad : ph.memsz < ph.filesz ∨ ph.vaddr + ph.memsz < ph.vaddr ∨
      KERNBASE ≤ ph.vaddr + ph.memsz
  · have hstop : k.loadSegment B f r ph st.sz = .ok (none, k) := by
      rw [Kmem.loadSegment]
      rcases hbad with h1 | h1 | h1
      · rw [if_pos h1]
      · rw [if_pos h1, ite_self]
      · rw [Kmem.allocuvm, if_pos h1]
        exact (ite_congr rfl (fun _ => rfl) fun _ => ite_self _).trans (ite_self _)
    rw [hstop, Program.segment, if_pos hbad, Layout.state, Nat.sub_self]
    exact .ok ⟨l, rfl, h.toBuilding⟩
  obtain ⟨hle, hover, hlt⟩ : ¬ ph.memsz < ph.filesz ∧ ¬ ph.vaddr + ph.memsz < ph.vaddr ∧
      ph.vaddr + ph.memsz < KERNBASE :=
    ⟨fun h1 => hbad (.inl h1), fun h1 => hbad (.inr (.inl h1)),
      UInt64.not_le.1 fun h1 => hbad (.inr (.inr h1))⟩
  rw [Kmem.loadSegment, if_neg hle, if_neg hover, Program.segment, if_neg hbad]
  generalize hst : ({ st with sz := if ph.vaddr + ph.memsz < st.sz then st.sz else
    ph.vaddr + ph.memsz } : Loaded) = st₁
  have hsz : st₁.sz = if ph.vaddr + ph.memsz < st.sz then st.sz else ph.vaddr + ph.memsz := by
    rw [← hst]
  have halloc := h.allocuvm hlt
  rw [hst, ← hsz] at halloc
  have hend : ph.vaddr.toNat + ph.filesz.toUInt32.toNat ≤ st₁.sz.toNat := by
    rw [hsz]
    exact segment_le hle hover _
  rw [Program.sz_copy, ← Nat.add_zero (4 * _)]
  refine Spends.bind (halloc.mono le_rfl (fun _ => False.elim) fun _ _ => id) ?_
  rintro ⟨res, k₁⟩ n ⟨l₁, rfl, rfl, hL⟩
  have hne0 : st₁.sz ≠ 0 := by
    intro h0
    have := UInt64.le_iff_toNat_le.1 hL.page
    rw [h0] at this
    exact absurd this (by decide)
  change Spends _ _ _ _ (if st₁.sz = 0 then _ else if ph.vaddr % PGSIZE ≠ 0 then _ else _) _
  rw [if_neg hne0, Program.copy]
  by_cases halign : ph.vaddr % PGSIZE ≠ 0
  · rw [if_pos halign, if_pos halign]
    exact .ok ⟨l₁, rfl, hL.toBuilding⟩
  rw [if_neg halign, if_neg halign]
  by_cases hnone : ph.filesz.toUInt32 = 0
  · have hload : k₁.loaduvm r ph.vaddr f ph.off.toUInt32 ph.filesz.toUInt32 = .ok (0, k₁) := by
      rw [Kmem.loaduvm, if_neg halign, hnone]
      rfl
    rw [if_pos hnone, hload]
    exact .ok ⟨l₁, rfl, rfl, hL⟩
  rw [if_neg hnone]
  by_cases hzero : ph.vaddr = 0 ∧ st₁.sz ≤ PGSIZE
  · rw [if_pos hzero, hzero.1, loaduvm_zero f hnone (hL.fresh hzero.2)]
    exact .inr ⟨rfl, _, rfl⟩
  rw [if_neg hzero]
  obtain ⟨res, k', hok, hres⟩ := hL.loaduvm f ph (not_not.1 halign) hend hnone hzero
  rw [hok]
  by_cases hfull : f.bytes.length < ph.off.toUInt32.toNat + ph.filesz.toUInt32.toNat
  · rw [if_pos hfull] at hres ⊢
    obtain ⟨rfl, hb⟩ := hres
    exact .ok ⟨l₁, rfl, hb⟩
  · rw [if_neg hfull] at hres ⊢
    obtain ⟨rfl, hb⟩ := hres
    exact .ok ⟨l₁, rfl, rfl, hb⟩

/-- **The loop over the program headers** does what the file asks for. -/
theorem Loading.loadLoop (f : Program) : ∀ (n : ℕ) (off : UInt32) {st : Loaded} {k : Kmem}
    {l : List UInt64}, Loading B k₀ l₀ r st k l →
    Spends .outOfMemory (fun e => e = .loaduvmExist ∧ ∃ st', f.layout n off st = .crash st')
      (4 * (npages (f.layout n off st).state.sz - npages st.sz)) l.length
      (k.loadLoop B f r n off st.sz) fun (res, k') n' => ∃ l', l'.length = n' ∧
        Follows B k₀ l₀ r (f.layout n off st) res k' l'
  | 0, off, st, k, l, h => by
    rw [Program.layout, Layout.state, Nat.sub_self]
    exact .ok ⟨l, rfl, rfl, h⟩
  | n + 1, off, st, k, l, h => by
    rw [Kmem.loadLoop, Program.layout]
    cases f.proghdr off with
    | none =>
      dsimp only
      rw [Layout.state, Nat.sub_self]
      exact .ok ⟨l, rfl, h.toBuilding⟩
    | some ph =>
      dsimp only
      by_cases hload : ph.type ≠ ELF_PROG_LOAD
      · rw [if_pos hload, if_pos hload]
        exact Loading.loadLoop f n (off + 56) h
      rw [if_neg hload, if_neg hload]
      have hseg := h.loadSegment f ph
      have hmono := npages_mono (f.sz_le_segment ph st)
      cases hs : f.segment ph st with
      | bad st' =>
        rw [hs] at hseg
        dsimp only
        rw [← Nat.add_zero (4 * _)]
        refine Spends.bind (hseg.mono le_rfl (fun e he => ?_) fun _ _ => id) ?_
        · obtain ⟨-, _, hcr⟩ := he
          cases hcr
        · rintro ⟨_ | sz, k'⟩ n' ⟨l', rfl, hb⟩
          · exact .ok ⟨l', rfl, hb⟩
          · exact hb.elim
      | crash st' =>
        rw [hs] at hseg
        dsimp only
        rw [← Nat.add_zero (4 * _)]
        refine Spends.bind (hseg.mono le_rfl (fun e he => ⟨he.1, st', rfl⟩) fun _ _ => id) ?_
        rintro ⟨_ | sz, k'⟩ n' ⟨l', rfl, hb⟩ <;> exact hb.elim
      | done st' =>
        rw [hs] at hseg hmono
        change npages st.sz ≤ npages st'.sz at hmono
        have hmono' := npages_mono (f.sz_le_layout n (off + 56) st')
        dsimp only
        rw [show npages (f.layout n (off + 56) st').state.sz - npages st.sz =
          npages st'.sz - npages st.sz +
            (npages (f.layout n (off + 56) st').state.sz - npages st'.sz) by omega, Nat.mul_add]
        refine Spends.bind (hseg.mono le_rfl (fun e he => ?_) fun _ _ => id) ?_
        · obtain ⟨-, _, hcr⟩ := he
          cases hcr
        · rintro ⟨_ | sz, k'⟩ n' ⟨l', rfl, hb⟩
          · exact hb.elim
          · obtain ⟨rfl, hL⟩ := hb
            exact Loading.loadLoop f n (off + 56) hL

/-- **A new page table.** -/
theorem Pool.loading (h : Pool B k l) :
    Spends .outOfMemory (fun _ => False) 1 l.length (k.setupkvm B) fun (r, k') n =>
      ∃ l', l'.length = n ∧ r ∈ l ∧ Loading B k l r .start k' l' := by
  refine h.newSpace.mono le_rfl (fun _ => id) ?_
  rintro ⟨r, k'⟩ n ⟨l', hl, hcons, hs, hnone, hmem, hword, hpte, hnode⟩
  have hr : r ∈ l := by simp [hcons]
  have hstart : npages Loaded.start.sz = 1 := rfl
  refine ⟨l', hl, hr, ⟨hs, fun q hq _ => hmem q ?_, fun i _ hi' => hword i hi'⟩, fun v => ?_,
    fun v h1 h2 => ?_, hpte 0, fun _ => hnode 2 0, UInt64.le_refl _, fun a h1 h2 => ?_,
    fun _ _ => rfl⟩
  · rintro rfl
    exact hq hr
  · rw [hnone, hstart]
    simp
    omega
  · omega
  · omega

end Kmem

end Xv6

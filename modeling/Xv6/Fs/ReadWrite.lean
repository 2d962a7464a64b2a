/-
  A file is an array of bytes.

  `writei` refuses to write beyond the largest size or after the end of the
  file; otherwise it replaces bytes of the contents and lets the file grow,
  unless `balloc` finds no free block.  Free blocks are counted by
  `freeBlocks`, and a write that finds enough of them succeeds.
-/
import Mathlib.Data.Finset.Card
import Xv6.Fs.Filewrite
import Xv6.Io.File

namespace Xv6

open Own Fallible Bytes Transition

/-! ## Free blocks -/

/-- The blocks whose bit is clear. -/
def freeBlocks (sb : Superblock) (d : Disk) : ℕ :=
  ((Finset.range sb.size).filter fun b => bitAt sb d b = false).card

section
variable {sb : Superblock} {tab : ℕ → Dinode} {d d' : Disk} {i : ℕ} {b : BlockNo}

theorem freeBlocks_congr (h : ∀ c < sb.size, bitAt sb d' c = bitAt sb d c) :
    freeBlocks sb d' = freeBlocks sb d := by
  rw [freeBlocks, freeBlocks]
  congr 1
  refine Finset.filter_congr fun c hc => ?_
  rw [h c (Finset.mem_range.1 hc)]

/-- A store to a data block. -/
theorem freeBlocks_update (hok : sb.Ok) (hb : sb.IsData b) (v : Block) :
    freeBlocks sb (Function.update d b v) = freeBlocks sb d :=
  freeBlocks_congr fun _ hc => bitAt_update hok hc hb v

theorem Balloced.freeBlocks (h : Balloced sb d b d') :
    Xv6.freeBlocks sb d = Xv6.freeBlocks sb d' + 1 := by
  have hset : (Finset.range sb.size).filter (fun c => bitAt sb d' c = false) =
      ((Finset.range sb.size).filter fun c => bitAt sb d c = false).erase b.toNat := by
    ext c
    simp only [Finset.mem_filter, Finset.mem_range, Finset.mem_erase]
    constructor
    · rintro ⟨hc, hbit⟩
      rw [h.bit hc] at hbit
      split_ifs at hbit with hbc
      exact ⟨fun he => hbc he.symm, hc, hbit⟩
    · rintro ⟨hbc, hc, hbit⟩
      rw [h.bit hc, if_neg fun he => hbc he.symm]
      exact ⟨hc, hbit⟩
  have hmem : b.toNat ∈ (Finset.range sb.size).filter fun c => bitAt sb d c = false :=
    Finset.mem_filter.2 ⟨Finset.mem_range.2 h.data.2, h.free⟩
  rw [Xv6.freeBlocks, Xv6.freeBlocks, hset, Finset.card_erase_add_one hmem]

/-- `balloc` fails only if every bit is set. -/
theorem balloc_error {e : FsPanic} (h : balloc sb d = .error e) :
    e = .outOfBlocks ∧ freeBlocks sb d = 0 := by
  unfold balloc at h
  split at h
  next => cases h
  next hnone =>
    cases h
    refine ⟨rfl, Finset.card_eq_zero.2 (Finset.filter_eq_empty_iff.2 fun {c} hc hbit => ?_)⟩
    have hc := Finset.mem_range.1 hc
    have hlt : c % BPB < BPB := Nat.mod_lt _ (by decide)
    have hk := List.findSome?_eq_none_iff.1 hnone (c / BPB) (List.mem_range.2 (by
      simp only [BPB, BSIZE]
      omega))
    rw [Option.map_eq_none_iff, ballocScan, List.find?_eq_none] at hk
    refine hk (c % BPB) (List.mem_range.2 hlt) (decide_eq_true ⟨?_, ?_⟩)
    · rw [Nat.div_add_mod']
      exact hc
    · rw [bblock_mul sb hlt, Nat.div_add_mod']
      exact hbit

/-- **`balloc`** takes one free block. -/
theorem balloc_spends (h : Refs sb tab d) :
    Spends .outOfBlocks (fun _ => False) 1 (freeBlocks sb d) (balloc sb d) fun (b, d') n =>
      Balloced sb d b d' ∧ n = freeBlocks sb d' := by
  cases hb : balloc sb d with
  | error e =>
    obtain ⟨rfl, h0⟩ := balloc_error hb
    exact .inl ⟨rfl, by omega⟩
  | ok r =>
    have hspec := balloc_spec h.ok h.nmeta hb
    exact ⟨_, hspec.freeBlocks.le, hspec, rfl⟩

theorem loadIndirect_spends (h : Refs sb tab d) (hi : i < sb.ninodes) (ht : (tab i).type ≠ 0) :
    Spends .outOfBlocks (fun _ => False) 1 (freeBlocks sb d) (loadIndirect sb d (tab i))
      fun (ind, _, d') n => n = freeBlocks sb d' ∧ sb.IsData ind ∧ ∃ tab', Refs sb tab' d' := by
  rw [loadIndirect]
  split_ifs with h0
  · refine (Spends.bind (balloc_spends h) ?_ : Spends _ _ (1 + 0) _ _ _)
    rintro ⟨b, d'⟩ n ⟨hb, rfl⟩
    obtain ⟨hg, -⟩ := h.fillAddr hi ht h0 hb
    exact .ok ⟨rfl, hb.data, _, hg.refs⟩
  · exact .unused ⟨rfl, (h.used_iaddr hi ht h0).1, tab, h⟩

/-- **`bmap`** takes at most two free blocks. -/
theorem bmap_spends (h : Refs sb tab d) (hi : i < sb.ninodes) (ht : (tab i).type ≠ 0) {bn : ℕ}
    (hbn : bn < MAXFILE) :
    Spends .outOfBlocks (fun _ => False) 2 (freeBlocks sb d) (bmap sb d (tab i) bn)
      fun (_, _, d') n => n = freeBlocks sb d' := by
  by_cases hdir : bn < NDIRECT
  · simp only [bmap, dif_pos hdir]
    split_ifs with h0
    · refine (Spends.bind (balloc_spends h) ?_ : Spends _ _ (1 + 1) _ _ _)
      rintro ⟨b, d'⟩ n ⟨-, rfl⟩
      exact .unused rfl
    · exact .unused rfl
  have hn : bn - NDIRECT < NINDIRECT := by
    simp only [MAXFILE, NDIRECT] at hbn hdir ⊢
    omega
  simp only [bmap, dif_neg hdir, if_pos hn]
  refine (Spends.bind (loadIndirect_spends h hi ht) ?_ : Spends _ _ (1 + 1) _ _ _)
  rintro ⟨ind, di, d₁⟩ n ⟨rfl, hind, tab', h₁⟩
  dsimp only
  split_ifs with h0
  · refine (Spends.bind (balloc_spends h₁) ?_ : Spends _ _ (1 + 0) _ _ _)
    rintro ⟨b, d₂⟩ n ⟨-, rfl⟩
    exact .ok (freeBlocks_update h.ok hind _).symm
  · exact .unused rfl

/-- The blocks that `n` bytes at offset `off` touch. -/
def pieces (off n : ℕ) : ℕ := if n = 0 then 0 else (off % BSIZE + n + BSIZE - 1) / BSIZE

/-- **The loop of `writei`** takes at most two free blocks a round. -/
theorem writeiLoop_spends (hi : i < sb.ninodes) (fuel : ℕ) : ∀ {tab : ℕ → Dinode} {d : Disk}
    {n off : ℕ} {src : List UInt8}, Refs sb tab d → (tab i).type ≠ 0 → Filled (tab i) d n →
    off ≤ n * BSIZE → off + src.length ≤ MAXFILE * BSIZE →
    Spends .outOfBlocks (fun _ => False) (2 * pieces off src.length) (freeBlocks sb d)
      (writeiLoop sb fuel d (tab i) off src) fun (_, d') n => n = freeBlocks sb d' := by
  induction fuel with
  | zero =>
    intro tab d n off src _ _ _ _ _
    exact .unused rfl
  | succ fuel ih =>
    intro tab d n off src h ht hf hoff hmax
    rw [writeiLoop]
    split_ifs with hnil
    · exact .unused rfl
    obtain ⟨hpos, hm⟩ := round_le n off hnil
    have hlen := List.length_pos_iff.2 hnil
    have hbn : off / BSIZE < MAXFILE := Nat.div_lt_of_lt_mul (by rw [Nat.mul_comm]; omega)
    set m := min src.length (BSIZE - off % BSIZE) with hm'
    have hcost : 2 * pieces off src.length = 2 + 2 * pieces (off + m) (src.drop m).length := by
      simp only [pieces, List.length_drop, if_neg hlen.ne', BSIZE] at hm hm' ⊢
      split_ifs <;> omega
    rw [hcost]
    refine Spends.bind (bmap_spends h hi ht hbn).result ?_
    rintro ⟨b, di₁, d₁⟩ n' ⟨hb, rfl⟩
    obtain ⟨hg₁, ht₁, hf₁⟩ := writeiRound h hi ht hf hoff hb
      (setBytes (d₁ b) (off % BSIZE) (src.take m))
    have hself : Function.update tab i di₁ i = di₁ := Function.update_self ..
    rw [← freeBlocks_update h.ok ((bmap_spec h hi ht hb).data hi ht)
      (setBytes (d₁ b) (off % BSIZE) (src.take m))]
    have hmax' : off + m + (src.drop m).length ≤ MAXFILE * BSIZE := by
      rw [List.length_drop]
      have : m ≤ src.length := min_le_left _ _
      omega
    have hrest := ih hg₁.refs ht₁ hf₁ hm hmax'
    rw [hself] at hrest
    exact hrest

end

/-! ## The contents -/

section
variable {F : Prop} {sb : Superblock} {d d' : Disk} {ip ip' : Inode}

/-- `readi` as a function of the contents. -/
theorem readi_eq (dev : Devsw) (h : Owned F sb d) (hi : ip.inum < sb.ninodes) (ht : ip.di.type ≠ 0)
    (hdi : dinodeAt sb d ip.inum = ip.di) (hdev : ip.di.type ≠ T_DEV) (off n : UInt32) :
    readi sb dev d ip off.toNat n.toNat =
      if ip.di.size.toNat < off.toNat ∨ 2 ^ 32 ≤ off.toNat + n.toNat then .ok (none, ip, d)
      else .ok (some (((contents ip.di d).drop off.toNat).take n.toNat), ip, d) := by
  have hoff := off.toNat_lt
  have hn := n.toNat_lt
  split_ifs with hbad
  · rw [readi, if_neg hdev, if_pos (by omega)]
  · exact readi_contents dev h hi ht hdi hdev (by omega) (by omega)

/-- What a file looks like after a write of `src` at `off`. -/
structure Rewritten (F : Prop) (sb : Superblock) (dev : Devsw) (d : Disk) (ip : Inode)
    (src : List UInt8) (off : ℕ) (ip' : Inode) (d' : Disk) : Prop where
  bytes : contents ip'.di d' = overwrite (contents ip.di d) off src
  size : ip'.di.size.toNat = max ip.di.size.toNat (off + src.length)
  fields : ip'.di = { ip.di with addrs := ip'.di.addrs, size := ip'.di.size }
  others : KeepsFiles sb d ip.inum d'
  kept : Kept F sb d ip ip' d'
  reads : ∀ off' n' : UInt32, readi sb dev d' ip' off'.toNat n'.toNat =
    if ip'.di.size.toNat < off'.toNat ∨ 2 ^ 32 ≤ off'.toNat + n'.toNat then .ok (none, ip', d')
    else .ok (some (((contents ip'.di d').drop off'.toNat).take n'.toNat), ip', d')

/-- A write in the range that is allowed. -/
theorem writei_spends (h : Owned F sb d) (hi : ip.inum < sb.ninodes) (ht : ip.di.type ≠ 0)
    (hdi : dinodeAt sb d ip.inum = ip.di) (hdev : ip.di.type ≠ T_DEV) (dev : Devsw)
    {src : List UInt8} {off : ℕ} (hoff : off ≤ ip.di.size.toNat)
    (hmax : off + src.length ≤ MAXFILE * BSIZE) :
    Spends .outOfBlocks (fun _ => False) (2 * pieces off src.length) (freeBlocks sb d)
      (writei sb dev d ip src off) fun (r, _, d') n => r = some src.length ∧ n = freeBlocks sb d' := by
  have hmod : (off + src.length) % 2 ^ 32 = off + src.length := Nat.mod_eq_of_lt (by
    simp only [MAXFILE, NDIRECT, NINDIRECT, BSIZE] at hmax
    omega)
  have hfill := h.filled hi (hdi ▸ ht)
  simp only [writei]
  rw [if_neg hdev, hmod, if_neg (by omega), if_neg (by omega)]
  have hloop := writeiLoop_spends hi src.length h.refs (hdi ▸ ht) hfill
    (by rw [hdi]; exact hoff.trans (le_nblocks _)) hmax
  rw [hdi] at hloop
  rw [← Nat.add_zero (2 * _)]
  refine hloop.bind ?_
  rintro ⟨di, d₁⟩ n rfl
  dsimp only
  split_ifs
  · exact .ok ⟨rfl, (freeBlocks_congr fun c hc => bitAt_setDinode h.refs.ok hi hc _).symm⟩
  · exact .ok ⟨rfl, rfl⟩

/-- A write in the range that is allowed stores its bytes, if blocks do not run out. -/
theorem writei_rewritten (h : Owned F sb d) (hi : ip.inum < sb.ninodes) (ht : ip.di.type ≠ 0)
    (hdi : dinodeAt sb d ip.inum = ip.di) (hdev : ip.di.type ≠ T_DEV) (dev : Devsw)
    {src : List UInt8} {off : ℕ} (hoff : off ≤ ip.di.size.toNat)
    (hmax : off + src.length ≤ MAXFILE * BSIZE) :
    (2 * pieces off src.length ≤ freeBlocks sb d →
      writei sb dev d ip src off ≠ .error .outOfBlocks) ∧
    (writei sb dev d ip src off ≠ .error .outOfBlocks →
      ∃ ip' d', writei sb dev d ip src off = .ok (some src.length, ip', d') ∧
        Rewritten F sb dev d ip src off ip' d') := by
  have hspec := writei_spends h hi ht hdi hdev dev hoff hmax
  constructor
  · intro hfree hout
    rw [hout] at hspec
    rcases hspec with ⟨-, hlt⟩ | hf
    · omega
    · exact hf
  · intro hout
    cases hok : writei sb dev d ip src off with
    | error e =>
      rw [hok] at hspec
      rcases hspec with ⟨rfl, -⟩ | hf
      · exact absurd hok hout
      · exact hf.elim
    | ok r =>
      obtain ⟨r, ip', d'⟩ := r
      rw [hok] at hspec
      obtain ⟨-, -, rfl, -⟩ := hspec
      have hsrc : src.length < 2 ^ 32 := by
        simp only [MAXFILE, NDIRECT, NINDIRECT, BSIZE] at hmax
        omega
      have hstored := writei_contents h hi ht hdi hsrc hok
      have hkept := writei_kept h hi ht hdi hsrc hok
      obtain ⟨-, hle, -, hbytes⟩ := hstored.bytes hdev _ rfl
      have hinum : ip'.inum = ip.inum := by rw [hkept.eq]
      have hdev' : ip'.di.type ≠ T_DEV := by rw [hstored.fields]; exact hdev
      refine ⟨ip', d', rfl, hbytes, ?_, hstored.fields, hstored.others, hkept, fun off' n' => ?_⟩
      · have hlen := congrArg List.length hbytes
        rw [length_contents, length_overwrite, length_contents] at hlen
        omega
      · exact readi_eq dev hkept.owned (hinum ▸ hi) hkept.type (hinum ▸ hkept.self) hdev' off' n'

/-- **A file is an array of bytes**: what `writei` refuses, what it does otherwise, and what `readi`
returns afterwards. -/
theorem writei_readi_array (h : Owned F sb d) (hi : ip.inum < sb.ninodes) (ht : ip.di.type ≠ 0)
    (hdi : dinodeAt sb d ip.inum = ip.di) (hdev : ip.di.type ≠ T_DEV) (dev : Devsw)
    {src : List UInt8} (hsrc : src.length < 2 ^ 32) (off : UInt32) :
    (writei sb dev d ip src off.toNat = .ok (none, ip, d) ↔ ip.di.size.toNat < off.toNat ∨
      2 ^ 32 ≤ off.toNat + src.length ∨ MAXFILE * BSIZE < off.toNat + src.length) ∧
    (¬ (ip.di.size.toNat < off.toNat ∨ 2 ^ 32 ≤ off.toNat + src.length ∨
        MAXFILE * BSIZE < off.toNat + src.length) →
      (2 * (src.length / BSIZE + 2) ≤ freeBlocks sb d →
        writei sb dev d ip src off.toNat ≠ .error .outOfBlocks) ∧
      (writei sb dev d ip src off.toNat ≠ .error .outOfBlocks →
        ∃ ip' d', writei sb dev d ip src off.toNat = .ok (some src.length, ip', d') ∧
          Rewritten F sb dev d ip src off.toNat ip' d')) := by
  have hoff := off.toNat_lt
  refine ⟨⟨fun hok => ?_, fun hbad => ?_⟩, fun hg => ?_⟩
  · by_contra hg
    have hle : off.toNat ≤ ip.di.size.toNat := by omega
    have hmax : off.toNat + src.length ≤ MAXFILE * BSIZE := by omega
    obtain ⟨-, hdone⟩ := writei_rewritten h hi ht hdi hdev dev hle hmax
    obtain ⟨ip', d', hok', -⟩ := hdone (by rw [hok]; rintro ⟨⟩)
    rw [hok] at hok'
    cases hok'
  · simp only [writei]
    rw [if_neg hdev]
    by_cases hsmall : ip.di.size.toNat < off.toNat ∨ (off.toNat + src.length) % 2 ^ 32 < off.toNat
    · rw [if_pos hsmall]
    · rw [if_neg hsmall, if_pos (by omega)]
  · have hle : off.toNat ≤ ip.di.size.toNat := by omega
    have hmax : off.toNat + src.length ≤ MAXFILE * BSIZE := by omega
    obtain ⟨henough, hdone⟩ := writei_rewritten h hi ht hdi hdev dev hle hmax
    refine ⟨fun hfree => henough (le_trans ?_ hfree), hdone⟩
    simp only [pieces, BSIZE]
    split_ifs <;> omega

end

/-- A new file on the small disk. -/
def newFile : Reached (Reach (· = smallFs) (FsStep noDev)) fun fs =>
    0 < (fs.icache 0).ref ∧ (dinodeAt fs.sb fs.disk (fs.icache 0).inum).type = T_FILE ∧
      (dinodeAt fs.sb fs.disk (fs.icache 0).inum).size = 0 ∧ 4 ≤ freeBlocks fs.sb fs.disk :=
  .ofRun _ fsStep_of_exec rfl [.ialloc T_FILE] (by decide +kernel)

theorem writei_readi_array_new : ∃ F sb d ip ip' d', Owned F sb d ∧ contents ip.di d = [] ∧
    writei sb noDev d ip [1, 2, 3] 0 = .ok (some 3, ip', d') ∧ contents ip'.di d' = [1, 2, 3] ∧
    readi sb noDev d' ip' 1 5 = .ok (some [2, 3], ip', d') := by
  obtain ⟨fs, hr, hp⟩ := newFile
  obtain ⟨href, htype, hsize, hfree⟩ := of_decide_eq_true hp
  have hc := smallFs_consistent.reach hr
  let ip : Inode := { fs.icache 0 with di := dinodeAt fs.sb fs.disk (fs.icache 0).inum }
  have hempty : contents ip.di fs.disk = [] :=
    List.eq_nil_of_length_eq_zero (by rw [length_contents, hsize]; rfl)
  have hi : ip.inum < fs.sb.ninodes := (hc.entry href).range
  have hsrc : ([1, 2, 3] : List UInt8).length < 2 ^ 32 := by decide
  obtain ⟨-, hwrite⟩ := writei_readi_array hc.owned hi
    (by rw [htype]; decide) rfl (by rw [htype]; decide) noDev hsrc 0
  obtain ⟨henough, hwrite⟩ := hwrite (by rw [hsize]; decide)
  obtain ⟨ip', d', hok, h⟩ := hwrite (henough hfree)
  have hbytes := h.bytes
  rw [hempty] at hbytes
  refine ⟨True, fs.sb, fs.disk, ip, ip', d', hc.owned, hempty, hok, hbytes, ?_⟩
  have hread := h.reads 1 5
  rw [hbytes, h.size, hsize] at hread
  exact hread

/-! ## `filewrite` -/

open Filewrite (MAXWRITE)

/-- The loop of `filewrite` for an inode, at most `fuel` rounds of it; `addr` are the bytes that are
left.  Every round writes at least one byte.  The result says whether all of them were written. -/
def filewriteLoop (dev : Devsw) (ip : Fin NINODE) :
    ℕ → Fs → UInt32 → List UInt8 → Except FsPanic (Bool × Fs × UInt32)
  | 0, fs, off, _ => .ok (true, fs, off)
  | fuel + 1, fs, off, addr =>
    if addr = [] then .ok (true, fs, off)
    else do
      let chunk := addr.take MAXWRITE
      let fs ← ilock fs ip
      let (r, e, d) ← writei fs.sb dev fs.disk (fs.icache ip) chunk off.toNat
      let fs := fs.put ip e d
      match r with
      | none => .ok (false, fs, off)
      | some r =>
        if r ≠ chunk.length then .error .shortFilewrite
        else filewriteLoop dev ip fuel fs (off + .ofNat r) (addr.drop r)

/-- `filewrite` for a file that is an inode; `addr` are its `n` bytes. -/
def filewriteInode (dev : Devsw) (fs : Fs) (f : File) (addr : List UInt8) :
    Except FsPanic (Option ℕ × Fs × File) :=
  if f.writable = false then .ok (none, fs, f)
  else do
    let (all, fs, off) ← filewriteLoop dev f.ip addr.length fs f.off addr
    .ok (if all then some addr.length else none, fs, { f with off := off })

section
variable {F : Prop} {fs : Fs} {i : Fin NINODE} {off : UInt32} {addr : List UInt8}

section
variable {dev : Devsw} {R : Filewrite.State → Prop}
  (hR : ∀ {s x s'}, R s → Filewrite.Step dev i s x s' → R s')
include hR

/-- The steps of a round of a call of `Xv6.Filewrite` that no other process interrupts. -/
theorem Filewrite.round_alone {c : Call} {order : List ℕ} {fs₁ : Fs} {e : Inode} {d : Disk}
    {r : Option ℕ} (h : R ⟨fs, off, none, order, [c]⟩) (hpc : c.pc = .loop)
    (hi : c.i < c.data.length) (hl : ilock fs i = .ok fs₁)
    (hw : writei fs₁.sb dev fs₁.disk (fs₁.icache i) c.chunk off.toNat = .ok (r, e, d)) :
    R ⟨fs₁.put i e d, off + .ofNat (r.getD 0), none, order ++ [0], [c.unlocked r]⟩ := by
  have h1 : R ⟨fs₁, off, some 0, order ++ [0], [{ c with pc := .locked }]⟩ :=
    hR (x := .stmt 0 .ilock) h (by
      simp [Step, State.next, Call.next, hpc, hi, hl, State.set, Except.toOption])
  have h2 : R ⟨fs₁.put i e d, off, some 0, order ++ [0], [{ c with pc := .wrote r }]⟩ :=
    hR (x := .stmt 0 .writei) h1 (by
      rw [show c.chunk = Call.chunk { c with pc := .locked } from rfl] at hw
      simp [Step, State.next, Call.next, hw, State.set, Except.toOption])
  have h3 : R ⟨fs₁.put i e d, off + .ofNat (r.getD 0), some 0, order ++ [0],
      [{ c with pc := .moved r }]⟩ :=
    hR (x := .stmt 0 .advance) h2 (by cases r <;> simp [Step, State.next, Call.next, State.set])
  exact hR (x := .stmt 0 .iunlock) h3 rfl

theorem Filewrite.loop_alone {data : List UInt8} {all : Bool} {fs' : Fs} {off' : UInt32} (fuel : ℕ) :
    ∀ {fs : Fs} {off : UInt32} {order : List ℕ} {n : ℕ},
      R ⟨fs, off, none, order, [⟨data, n, .loop⟩]⟩ → n ≤ data.length → data.length - n ≤ fuel →
      filewriteLoop dev i fuel fs off (data.drop n) = .ok (all, fs', off') →
      ∃ order' n', R ⟨fs', off', none, order',
        [⟨data, n', .ret (if all then some data.length else none)⟩]⟩ := by
  have hret : ∀ {fs off order n}, R ⟨fs, off, none, order, [⟨data, n, .loop⟩]⟩ → n = data.length →
      R ⟨fs, off, none, order, [⟨data, n, .ret (some data.length)⟩]⟩ := by
    rintro fs off order _ h rfl
    exact hR (x := .stmt 0 .ret) h (by simp [Step, State.next, Call.next, State.set])
  induction fuel with
  | zero =>
    intro fs off order n h hle hfuel hok
    cases hok
    exact ⟨order, n, hret h (by omega)⟩
  | succ fuel ih =>
    intro fs off order n h hle hfuel hok
    rw [filewriteLoop] at hok
    split_ifs at hok with hnil
    · cases hok
      exact ⟨order, n, hret h (le_antisymm hle (List.drop_eq_nil_iff.1 hnil))⟩
    obtain ⟨fs₁, hl, hok⟩ := bind_ok hok
    obtain ⟨⟨r, e, d⟩, hw, hok⟩ := bind_ok hok
    have hn : n < data.length := Nat.lt_of_not_le fun hge => hnil (List.drop_eq_nil_iff.2 hge)
    have h := round_alone hR h rfl hn hl hw
    cases r with
    | none =>
      cases hok
      exact ⟨order ++ [0], n, by simpa [Call.unlocked] using h⟩
    | some m =>
      simp only at hok
      split_ifs at hok with hm
      have hm : m = (Call.chunk ⟨data, n, .loop⟩).length := of_not_not hm
      have hpos : 0 < m ∧ m ≤ data.length - n := by
        rw [hm, Call.chunk, List.length_take, List.length_drop]
        simp only [MAXWRITE, LOGSIZE, MAXOPBLOCKS]
        omega
      rw [Call.unlocked, if_pos hm] at h
      rw [List.drop_drop] at hok
      exact ih h (by simp only; omega) (by simp only; omega) hok

end

/-- **A call that runs alone** does what `filewrite` computes. -/
theorem filewrite_alone {dev : Devsw} {f f' : File} {fs' : Fs} {r : Option ℕ}
    (hw : f.writable = true) (hlen : addr.length < 2 ^ 31)
    (hok : filewriteInode dev fs f addr = .ok (r, fs', f')) :
    ∃ order n, Reach (· = ⟨fs, f.off, none, [], []⟩) (Filewrite.Step dev f.ip)
      ⟨fs', f'.off, none, order, [⟨addr, n, .ret r⟩]⟩ := by
  rw [filewriteInode, if_neg (by rw [hw]; rintro ⟨⟩)] at hok
  obtain ⟨⟨all, fs₁, off⟩, hloop, hok⟩ := bind_ok hok
  cases hok
  have hcall : Filewrite.Step dev f.ip ⟨fs, f.off, none, [], []⟩ (.call addr)
      ⟨fs, f.off, none, [], [⟨addr, 0, .loop⟩]⟩ := if_pos hlen
  exact Filewrite.loop_alone (fun hr hs => .step hr hs) addr.length (.step (.init rfl) hcall)
    (Nat.zero_le _) le_rfl hloop

/-- `ilock` on an inode in use reads it from disk. -/
theorem ilock_spec (h : Consistent F fs) (hi : fs.Ref i)
    (ht : (dinodeAt fs.sb fs.disk (fs.icache i).inum).type ≠ 0) :
    ilock fs i = .ok (fs.put i { fs.icache i with
      valid := true, di := dinodeAt fs.sb fs.disk (fs.icache i).inum } fs.disk) := by
  have href : ¬ (fs.icache i).ref < 1 := Nat.not_lt.2 hi
  rw [ilock]
  dsimp only
  rw [if_neg href]
  split_ifs with hv
  · obtain ⟨hdi, -⟩ := (h.entry hi).valid hv
    rw [hdi, ← hv]
    exact congrArg Except.ok (by rw [Fs.put]; simp)
  · rfl

/-- The file of entry `i` is open. -/
structure OpenFile (F : Prop) (fs : Fs) (i : Fin NINODE) : Prop where
  cons : Consistent F fs
  ref : fs.Ref i
  type : (dinodeAt fs.sb fs.disk (fs.icache i).inum).type = T_FILE

theorem OpenFile.length_le (h : OpenFile F fs i) : (fs.file i).length ≤ MAXFILE * BSIZE := by
  rw [Fs.file, length_contents]
  exact h.cons.owned.size (h.cons.entry h.ref).range (by rw [h.type]; decide)

/-- A round: `ilock` succeeds, and `writei` fails or stores the chunk. -/
theorem OpenFile.round (h : OpenFile F fs i) (dev : Devsw) {chunk : List UInt8} {off : ℕ}
    (hchunk : chunk.length < 2 ^ 31) (hoff : off ≤ (fs.file i).length) :
    ∃ fs₁, ilock fs i = .ok fs₁ ∧ fs₁.sb = fs.sb ∧ fs₁.disk = fs.disk ∧ OpenFile F fs₁ i ∧
      fs₁.file i = fs.file i ∧
      if off + chunk.length ≤ MAXFILE * BSIZE then
        Spends .outOfBlocks (fun _ => False) (2 * pieces off chunk.length) (freeBlocks fs.sb fs.disk)
          (writei fs₁.sb dev fs₁.disk (fs₁.icache i) chunk off) fun (r, e, d) n =>
            r = some chunk.length ∧ n = freeBlocks fs.sb d ∧ OpenFile F (fs₁.put i e d) i ∧
              (fs₁.put i e d).file i = overwrite (fs.file i) off chunk
      else writei fs₁.sb dev fs₁.disk (fs₁.icache i) chunk off =
        .ok (none, fs₁.icache i, fs₁.disk) := by
  have ht : (dinodeAt fs.sb fs.disk (fs.icache i).inum).type ≠ 0 := by
    rw [h.type]
    decide
  have hlock := ilock_spec h.cons h.ref ht
  have hcons := h.cons.ilock h.ref hlock
  have hle := h.length_le
  have hlen : (fs.file i).length = (dinodeAt fs.sb fs.disk (fs.icache i).inum).size.toNat :=
    length_contents _ _
  generalize hfs₁ : fs.put i { fs.icache i with
    valid := true, di := dinodeAt fs.sb fs.disk (fs.icache i).inum } fs.disk = fs₁ at hlock hcons
  have hsb : fs₁.sb = fs.sb := by rw [← hfs₁, Fs.put_sb]
  have hdisk : fs₁.disk = fs.disk := by rw [← hfs₁, Fs.put_disk]
  have hip : fs₁.icache i = { fs.icache i with
      valid := true, di := dinodeAt fs.sb fs.disk (fs.icache i).inum } := by rw [← hfs₁, Fs.put_self]
  have hopen : OpenFile F fs₁ i := ⟨hcons, by rw [Fs.Ref, hip]; exact h.ref, by
    rw [hsb, hdisk, hip]
    exact h.type⟩
  have hfile : fs₁.file i = fs.file i := by rw [Fs.file, Fs.file, hsb, hdisk, hip]
  refine ⟨fs₁, hlock, hsb, hdisk, hopen, hfile, ?_⟩
  have hrange := (hcons.entry hopen.ref).range
  have hdi : dinodeAt fs₁.sb fs₁.disk (fs₁.icache i).inum = (fs₁.icache i).di := by
    rw [hsb, hdisk, hip]
  have hty : (fs₁.icache i).di.type = T_FILE := by rw [← hdi, hopen.type]
  have ht₁ : (fs₁.icache i).di.type ≠ 0 := by rw [hty]; decide
  have hdev : (fs₁.icache i).di.type ≠ T_DEV := by rw [hty]; decide
  have hsize : (fs₁.icache i).di.size.toNat = (fs.file i).length := by rw [hip, hlen]
  split_ifs with hmax
  · have hspec := writei_spends hcons.owned hrange ht₁ hdi hdev dev (hsize ▸ hoff) hmax
    rw [hsb, hdisk] at hspec ⊢
    refine hspec.result.mono le_rfl (fun _ => id) ?_
    rintro ⟨r, e, d⟩ n ⟨hok, rfl, rfl⟩
    rw [← hsb, ← hdisk] at hok
    have hkept := writei_kept hcons.owned hrange ht₁ hdi (by omega) hok
    have hst := writei_contents hcons.owned hrange ht₁ hdi (by omega) hok
    have hinum : e.inum = (fs₁.icache i).inum := by rw [hkept.eq]
    have hself : dinodeAt (fs₁.put i e d).sb (fs₁.put i e d).disk
        ((fs₁.put i e d).icache i).inum = e.di := by
      rw [Fs.put_self, hinum]
      exact hkept.self
    refine ⟨rfl, rfl, ⟨hcons.put_kept hopen.ref hkept, ?_, ?_⟩, ?_⟩
    · rw [Fs.Ref, Fs.put_self, hkept.eq]
      exact hopen.ref
    · rw [hself, hst.fields]
      exact hty
    · obtain ⟨-, -, -, hbytes⟩ := hst.bytes hdev _ rfl
      rw [Fs.file, hself, Fs.put_disk, hbytes, ← hfile, Fs.file, hdi]
  · simp only [writei]
    have hsmall : ¬ ((fs₁.icache i).di.size.toNat < off ∨ (off + chunk.length) % 2 ^ 32 < off) := by
      simp only [MAXFILE, NDIRECT, NINDIRECT, BSIZE] at hle
      omega
    rw [if_neg hdev, if_neg hsmall, if_pos]
    simp only [MAXFILE, NDIRECT, NINDIRECT, BSIZE] at hle hmax ⊢
    omega

/-- What the loop of `filewrite` has written when it ends: the first `w` bytes. -/
structure Progress (F : Prop) (fs : Fs) (i : Fin NINODE) (off : UInt32) (addr : List UInt8)
    (all : Bool) (fs' : Fs) (off' : UInt32) (w : ℕ) : Prop where
  file : OpenFile F fs' i
  le : w ≤ addr.length
  advanced : off'.toNat = off.toNat + w
  bytes : fs'.file i = overwrite (fs.file i) off.toNat (addr.take w)
  fits : all = true ↔ off.toNat + addr.length ≤ MAXFILE * BSIZE
  whole : all = true → w = addr.length
  nothing : w = 0 ↔ addr = [] ∨ MAXFILE * BSIZE < off.toNat + min addr.length MAXWRITE

theorem overwrite_nil (l : List UInt8) (off : ℕ) : overwrite l off [] = l := by
  rw [overwrite, List.nil_append, List.length_nil, Nat.add_zero, List.take_append_drop]

/-- No bytes are left. -/
theorem OpenFile.progress_nil (h : OpenFile F fs i) (hoff : off.toNat ≤ (fs.file i).length) :
    Progress F fs i off [] true fs off 0 where
  file := h
  le := Nat.zero_le _
  advanced := rfl
  bytes := (overwrite_nil _ _).symm
  fits := iff_of_true rfl (hoff.trans h.length_le)
  whole _ := rfl
  nothing := iff_of_true rfl (.inl rfl)

/-- An offset does not wrap inside a file. -/
theorem off_add_toNat {n : ℕ} (h : off.toNat + n ≤ MAXFILE * BSIZE) :
    (off + .ofNat n).toNat = off.toNat + n := by
  simp only [MAXFILE, NDIRECT, NINDIRECT, BSIZE] at h
  rw [UInt32.toNat_add, UInt32.toNat_ofNat']
  omega

/-- A chunk has been written before. -/
theorem Progress.chunk {fs₁ fs' : Fs} {off' : UInt32} {all : Bool} {w : ℕ}
    (h : Progress F fs₁ i (off + .ofNat (addr.take MAXWRITE).length)
      (addr.drop (addr.take MAXWRITE).length) all fs' off' w) (hne : addr ≠ [])
    (hmax : off.toNat + (addr.take MAXWRITE).length ≤ MAXFILE * BSIZE)
    (hoff : off.toNat ≤ (fs.file i).length)
    (hfile : fs₁.file i = overwrite (fs.file i) off.toNat (addr.take MAXWRITE)) :
    Progress F fs i off addr all fs' off' ((addr.take MAXWRITE).length + w) := by
  have hmw : MAXWRITE = 6656 := rfl
  have hpos := List.length_pos_iff.2 hne
  have hlen : (addr.take MAXWRITE).length = min MAXWRITE addr.length := List.length_take
  have hdrop : (addr.drop (addr.take MAXWRITE).length).length =
      addr.length - (addr.take MAXWRITE).length := List.length_drop
  have hadd := off_add_toNat hmax
  have hw := h.le
  have hcut : (addr.take MAXWRITE).length ≤ addr.length := by omega
  have htake : addr.take ((addr.take MAXWRITE).length + w) =
      addr.take MAXWRITE ++ (addr.drop (addr.take MAXWRITE).length).take w := by
    rw [List.take_add]
    congr 1
    rw [hlen, List.take_eq_take_min]
    simp
  refine ⟨h.file, by omega, ?_, ?_, ?_, fun hall => ?_, ?_⟩
  · rw [h.advanced, hadd]
    omega
  · rw [h.bytes, hfile, hadd, htake]
    refine overwrite_append ?_ _
    rw [length_overwrite]
    omega
  · rw [h.fits, hadd]
    omega
  · rw [h.whole hall, hdrop]
    omega
  · refine iff_of_false (by omega) ?_
    rintro (h0 | h0)
    · exact hne h0
    · omega

/-- The rounds for `n` bytes. -/
def chunkCount (n : ℕ) : ℕ := (n + MAXWRITE - 1) / MAXWRITE

theorem chunkCount_eq (n : ℕ) : chunkCount n = (n + 6655) / 6656 := by
  rw [chunkCount, show MAXWRITE = 6656 from rfl, Nat.add_sub_assoc (by decide)]

/-- **The loop of `filewrite`**; a chunk lies in at most 14 blocks. -/
theorem OpenFile.filewriteLoop (dev : Devsw) : ∀ (fuel : ℕ) {fs : Fs} {off : UInt32}
    {addr : List UInt8}, OpenFile F fs i → off.toNat ≤ (fs.file i).length → addr.length ≤ fuel →
    Spends .outOfBlocks (fun _ => False) (28 * chunkCount addr.length) (freeBlocks fs.sb fs.disk)
      (filewriteLoop dev i fuel fs off addr) fun (all, fs', off') n =>
        n = freeBlocks fs'.sb fs'.disk ∧ ∃ w, Progress F fs i off addr all fs' off' w
  | 0, fs, off, addr, h, hoff, hfuel => by
    obtain rfl : addr = [] := List.eq_nil_of_length_eq_zero (Nat.le_zero.1 hfuel)
    exact .unused ⟨rfl, 0, h.progress_nil hoff⟩
  | fuel + 1, fs, off, addr, h, hoff, hfuel => by
    rw [Xv6.filewriteLoop]
    split_ifs with hnil
    · subst hnil
      exact .unused ⟨rfl, 0, h.progress_nil hoff⟩
    have hmw : MAXWRITE = 6656 := rfl
    have hpos := List.length_pos_iff.2 hnil
    have hlen : (addr.take MAXWRITE).length = min MAXWRITE addr.length := List.length_take
    have hle := h.length_le
    have hsmall : (addr.take MAXWRITE).length < 2 ^ 31 := by omega
    obtain ⟨fs₁, hlock, hsb, hdisk, hopen₁, hfile₁, hround⟩ := h.round dev hsmall hoff
    rw [hlock]
    change Spends _ _ _ _ (writei _ _ _ _ _ _ >>= _) _
    by_cases hmax : off.toNat + (addr.take MAXWRITE).length ≤ MAXFILE * BSIZE
    · rw [if_pos hmax] at hround
      have hcost : 2 * pieces off.toNat (addr.take MAXWRITE).length +
          28 * chunkCount (addr.drop (addr.take MAXWRITE).length).length ≤
            28 * chunkCount addr.length := by
        rw [List.length_drop, pieces, if_neg (by omega), chunkCount_eq, chunkCount_eq]
        simp only [BSIZE]
        omega
      refine (Spends.bind hround ?_).mono hcost (fun _ => id) fun _ _ => id
      rintro ⟨r, e, d⟩ n ⟨rfl, rfl, hopen₂, hfile₂⟩
      dsimp only
      rw [if_neg (not_not.2 rfl)]
      have hadd := off_add_toNat hmax
      have hoff₂ : (off + .ofNat (addr.take MAXWRITE).length).toNat ≤
          ((fs₁.put i e d).file i).length := by
        rw [hadd, hfile₂, length_overwrite]
        omega
      have hfuel₂ : (addr.drop (addr.take MAXWRITE).length).length ≤ fuel := by
        rw [List.length_drop]
        omega
      have hrest := OpenFile.filewriteLoop dev fuel hopen₂ hoff₂ hfuel₂
      rw [Fs.put_sb, Fs.put_disk, hsb] at hrest
      refine hrest.mono le_rfl (fun _ => id) ?_
      rintro ⟨all, fs', off'⟩ n ⟨hn, w, hw⟩
      exact ⟨hn, _, hw.chunk hnil hmax hoff hfile₂⟩
    · rw [if_neg hmax] at hround
      have hself : fs₁.put i (fs₁.icache i) fs₁.disk = fs₁ := by
        rw [Fs.put, Function.update_eq_self]
      rw [hround]
      refine Spends.unused (a := (false, fs₁.put i (fs₁.icache i) fs₁.disk, off)) ?_
      rw [hself]
      refine ⟨by rw [hsb, hdisk], 0, hopen₁, Nat.zero_le _, rfl, ?_, iff_of_false (by rintro ⟨⟩) (by omega), by rintro ⟨⟩,
        iff_of_true rfl (.inr (by omega))⟩
      rw [List.take_zero, overwrite_nil, hfile₁]

/-- What `filewrite` says it has done: the first `m` bytes are stored, or else nothing. -/
def Reports (fs : Fs) (f : File) (addr : List UInt8) (r : Option ℕ) (fs' : Fs) (f' : File) : Prop :=
  match r with
  | some m => m ≤ addr.length ∧ f'.off.toNat = f.off.toNat + m ∧
    fs'.file f.ip = overwrite (fs.file f.ip) f.off.toNat (addr.take m)
  | none => f'.off = f.off ∧ fs'.file f.ip = fs.file f.ip

/-- **`filewrite` reports what it wrote** unless the file reaches the largest size after the first
chunk. -/
theorem filewrite_reports_iff (dev : Devsw) {f : File} (h : OpenFile F fs f.ip)
    (hw : f.writable = true) (hoff : f.off.toNat ≤ (fs.file f.ip).length) (addr : List UInt8) :
    (28 * chunkCount addr.length ≤ freeBlocks fs.sb fs.disk →
      filewriteInode dev fs f addr ≠ .error .outOfBlocks) ∧
    (filewriteInode dev fs f addr ≠ .error .outOfBlocks →
      ∃ r fs' f', filewriteInode dev fs f addr = .ok (r, fs', f') ∧
        (Reports fs f addr r fs' f' ↔ f.off.toNat + addr.length ≤ MAXFILE * BSIZE ∨
          MAXFILE * BSIZE < f.off.toNat + min addr.length MAXWRITE)) := by
  have hspec := h.filewriteLoop dev addr.length hoff le_rfl
  rw [filewriteInode, if_neg (by rw [hw]; rintro ⟨⟩)]
  cases hloop : filewriteLoop dev f.ip addr.length fs f.off addr with
  | error e =>
    rw [hloop] at hspec
    rcases hspec with ⟨rfl, hlt⟩ | hf
    · exact ⟨fun hfree => absurd hfree (Nat.not_le.2 hlt), fun hfree => absurd rfl hfree⟩
    · exact hf.elim
  | ok out =>
    obtain ⟨all, fs', off'⟩ := out
    rw [hloop] at hspec
    obtain ⟨-, -, -, w, hp⟩ := hspec
    refine ⟨fun _ => (by rintro ⟨⟩), fun _ => ⟨_, fs', { f with off := off' }, rfl, ?_⟩⟩
    cases all with
    | true =>
      have hall := hp.fits.1 rfl
      have hlen := hp.whole rfl
      refine iff_of_true ⟨le_rfl, ?_, ?_⟩ (.inl hall)
      · rw [← hlen]
        exact hp.advanced
      · rw [← hlen]
        exact hp.bytes
    | false =>
      have hnot : ¬ f.off.toNat + addr.length ≤ MAXFILE * BSIZE := fun hle => by cases hp.fits.2 hle
      rw [or_iff_right hnot]
      constructor
      · rintro ⟨hsame, -⟩
        have hadv := hp.advanced
        have hsame : off' = f.off := hsame
        rw [hsame] at hadv
        rcases hp.nothing.1 (by omega) with rfl | hbig
        · exact absurd (hoff.trans h.length_le) hnot
        · exact hbig
      · intro hbig
        have h0 := hp.nothing.2 (.inr hbig)
        refine ⟨UInt32.toNat_inj.1 (by rw [hp.advanced, h0, Nat.add_zero]), ?_⟩
        rw [hp.bytes, h0, List.take_zero, overwrite_nil]

end

/-! A disk of 512 blocks. -/

def largeSb : Superblock := ⟨512, 508, 2, 0, 2, 2, 3⟩

def largeDisk : Disk := fun b j =>
  if b = 1 then ([0, 2, 0, 0, 252, 1, 0, 0, 2, 0, 0, 0, 0, 0, 0, 0, 2, 0, 0, 0, 2, 0, 0, 0, 3] :
    List UInt8).getD j 0
  else if b = 3 ∧ j = 0 then 0x0f
  else 0

def largeFs : Fs := ⟨largeSb, largeDisk, fun _ => ⟨0, 0, 0, false, .zero⟩⟩

theorem largeFs_consistent : Consistent True largeFs := by
  refine empty_consistent ⟨by decide, by decide, by decide, by decide⟩ (by decide +kernel)
    (by decide +kernel) (by decide) fun i hi => ?_
  have : i = 0 ∨ i = 1 := by
    simp only [largeSb] at hi
    omega
  rcases this with rfl | rfl <;> exact Dinode.ext (by decide) (by decide) (by decide) (by decide)
    (by decide) (funext (by decide))

/-- A new file there. -/
def largeFile : Reached (Reach (· = largeFs) (FsStep noDev)) fun fs =>
    0 < (fs.icache 0).ref ∧ (dinodeAt fs.sb fs.disk (fs.icache 0).inum).type = T_FILE ∧
      (dinodeAt fs.sb fs.disk (fs.icache 0).inum).size = 0 ∧ 308 ≤ freeBlocks fs.sb fs.disk :=
  .ofRun _ fsStep_of_exec rfl [.ialloc T_FILE] (by decide +kernel)

theorem largeFile_open : ∃ fs, OpenFile True fs 0 ∧ fs.file 0 = [] ∧
    308 ≤ freeBlocks fs.sb fs.disk := by
  obtain ⟨fs, hr, hp⟩ := largeFile
  obtain ⟨href, htype, hsize, hfree⟩ := of_decide_eq_true hp
  refine ⟨fs, ⟨largeFs_consistent.reach hr, href, htype⟩, ?_, hfree⟩
  exact List.eq_nil_of_length_eq_zero (by rw [Fs.file, length_contents, hsize]; rfl)

/-- An open file at offset 0. -/
def writableFile : File := ⟨.FD_INODE, 1, true, true, 0, 0, 0⟩

theorem filewrite_reports_three : ∃ fs r fs' f', OpenFile True fs 0 ∧
    filewriteInode noDev fs writableFile [1, 2, 3] = .ok (r, fs', f') ∧
    Reports fs writableFile [1, 2, 3] r fs' f' := by
  obtain ⟨fs, h, hnil, hfree⟩ := largeFile_open
  have hrep := filewrite_reports_iff noDev (f := writableFile) h rfl (Nat.zero_le _) [1, 2, 3]
  obtain ⟨r, fs', f', hok, hiff⟩ := hrep.2 (hrep.1 (le_trans (by decide) hfree))
  exact ⟨fs, r, fs', f', h, hok, hiff.2 (.inl (by decide))⟩

/-- One byte more than the largest size: -1 is returned after ten chunks have been written. -/
theorem filewrite_partial : ∃ fs, OpenFile True fs 0 ∧ fs.file 0 = [] ∧
    ∀ addr : List UInt8, addr.length = 71681 → ∃ fs' f',
      filewriteInode noDev fs writableFile addr = .ok (none, fs', f') ∧ f'.off ≠ 0 ∧
      ¬ Reports fs writableFile addr none fs' f' := by
  obtain ⟨fs, h, hnil, hfree⟩ := largeFile_open
  refine ⟨fs, h, hnil, fun addr hlen => ?_⟩
  have hoff : (0 : UInt32).toNat ≤ (fs.file 0).length := Nat.zero_le _
  have hspec := h.filewriteLoop noDev addr.length hoff (le_refl addr.length)
  cases hloop : filewriteLoop noDev 0 addr.length fs 0 addr with
  | error e =>
    rw [hloop] at hspec
    rcases hspec with ⟨-, hlt⟩ | hf
    · rw [hlen, chunkCount_eq] at hlt
      omega
    · exact hf.elim
  | ok out =>
    obtain ⟨all, fs', off'⟩ := out
    rw [hloop] at hspec
    obtain ⟨-, -, -, w, hp⟩ := hspec
    have hall : all = false := Bool.eq_false_iff.2 fun hall => by
      have := hp.fits.1 hall
      rw [hlen] at this
      exact absurd this (by decide)
    have hw : w ≠ 0 := fun h0 => by
      rcases hp.nothing.1 h0 with rfl | hbig
      · cases hlen
      · rw [hlen] at hbig
        exact absurd hbig (by decide)
    have hne : off' ≠ 0 := fun h0 => hw (by
      have := hp.advanced
      rw [h0] at this
      simpa using this.symm)
    refine ⟨fs', { writableFile with off := off' }, ?_, hne, fun hr => hne hr.1⟩
    rw [filewriteInode, if_neg (by rintro ⟨⟩)]
    change (filewriteLoop noDev 0 _ fs 0 _ >>= _) = _
    rw [hloop, hall]
    rfl

end Xv6

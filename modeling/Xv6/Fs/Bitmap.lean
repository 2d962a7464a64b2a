/-
  The block allocator.

  `Allocates` and `Frees` say what `balloc` and `bfree` do to every block of the
  disk.  A run of the two keeps the bits of the metadata blocks, and after it
  the bits that are set are those of the blocks in use: the ones at the start,
  with the blocks that `balloc` returned and without those given to `bfree`.
-/
import Xv6.Fs.Need

namespace Xv6

open Bytes Function

/-- What `balloc` does. -/
structure Allocates (sb : Superblock) (d : Disk) (b : BlockNo) (d' : Disk) : Prop where
  lt : b.toNat < sb.size
  /-- the block was free -/
  clear : bitAt sb d b.toNat = false
  /-- it was the first free block -/
  first : ∀ c < b.toNat, bitAt sb d c = true
  /-- its bit is set, and no other bit of the bit map block changes -/
  bits : ∀ j, bit (d' (sb.bblock b.toNat)) j =
    if b.toNat % BPB = j then true else bit (d (sb.bblock b.toNat)) j
  zero : d' b = fun _ => 0
  others : ∀ c, c ≠ b → c ≠ sb.bblock b.toNat → d' c = d c

/-- What `bfree` does. -/
structure Frees (sb : Superblock) (d : Disk) (b : BlockNo) (d' : Disk) : Prop where
  bits : ∀ j, bit (d' (sb.bblock b.toNat)) j =
    if b.toNat % BPB = j then false else bit (d (sb.bblock b.toNat)) j
  others : ∀ c, c ≠ sb.bblock b.toNat → d' c = d c

/-- The super block is there, and the metadata blocks are not free. -/
structure MetaUsed (sb : Superblock) (d : Disk) : Prop where
  super : readsb d = sb
  used : ∀ c < sb.nmeta, bitAt sb d c = true

section
variable {sb : Superblock} {d d' d₁ : Disk} {b : BlockNo}

theorem MetaUsed.allocates (h : MetaUsed sb d) (hok : sb.Ok) (hb : balloc sb d = .ok (b, d')) :
    Allocates sb d b d' := by
  have hspec := balloc_spec hok h.used hb
  have hne : sb.bblock b.toNat ≠ b := hok.bblock_ne_data hspec.data.2 hspec.data
  obtain ⟨n, hn, hclear, rfl, rfl⟩ := balloc_ok hb
  have hnat : (UInt32.ofNat n).toNat = n := by
    have := hok.fits
    rw [UInt32.toNat_ofNat']
    omega
  rw [hnat] at hne
  refine ⟨hspec.data.2, hspec.free, fun c hc => balloc_first hok hb hc, fun j => ?_, ?_, fun c hc hc' => ?_⟩
  · have hlt : n % BPB < 8 * BSIZE := Nat.mod_lt _ (by decide)
    rw [hnat, bzero, update_of_ne hne, markUsed, update_self, bit_setBit _ hlt]
    split_ifs with h <;> simp [h]
  · rw [bzero, update_self]
  · rw [hnat] at hc'
    rw [bzero, update_of_ne hc, markUsed, update_of_ne hc']

theorem MetaUsed.frees (h : MetaUsed sb d) (hb : bfree d b = .ok d') :
    bitAt sb d b.toNat = true ∧ Frees sb d b d' := by
  have hlt : b.toNat % BPB < 8 * BSIZE := Nat.mod_lt _ (by decide)
  simp only [bfree, h.super] at hb
  split_ifs at hb with hbit
  cases hb
  refine ⟨Bool.eq_true_of_not_eq_false hbit, fun j => ?_, fun c hc => update_of_ne hc _ _⟩
  rw [update_self, bit_clearBit _ hlt]
  split_ifs with hj <;> simp [hj]

/-- `balloc` fails iff no block is free. -/
theorem balloc_error_iff (sb : Superblock) (d : Disk) :
    (∃ e, balloc sb d = .error e) ↔ ∀ c < sb.size, bitAt sb d c = true := by
  constructor
  · rintro ⟨e, he⟩ c hc
    have hnone := Finset.card_eq_zero.1 (balloc_error he).2
    by_contra hbit
    have hmem := Finset.filter_eq_empty_iff.1 hnone (Finset.mem_range.2 hc)
    exact hmem (Bool.eq_false_iff.2 hbit)
  · intro hall
    cases hb : balloc sb d with
    | error e => exact ⟨e, rfl⟩
    | ok r =>
      obtain ⟨n, hn, hclear, -⟩ := balloc_ok hb
      rw [hall n hn] at hclear
      cases hclear

/-! ## Runs -/

/-- A call that returns. -/
inductive AllocOp where
  /-- `balloc` returns the block -/
  | balloc (b : BlockNo)
  | bfree (b : BlockNo)

/-- One call; only data blocks are freed. -/
def AllocStep (sb : Superblock) (d : Disk) : AllocOp → Disk → Prop
  | .balloc b, d' => balloc sb d = .ok (b, d')
  | .bfree b, d' => sb.IsData b ∧ bfree d b = .ok d'

def AllocRun (sb : Superblock) : Disk → List AllocOp → Disk → Prop
  | d, [], d' => d' = d
  | d, op :: ops, d' => ∃ d₁, AllocStep sb d op d₁ ∧ AllocRun sb d₁ ops d'

/-- The blocks in use after a call. -/
def AllocOp.apply (used : Set ℕ) : AllocOp → Set ℕ
  | .balloc b => insert b.toNat used
  | .bfree b => used \ {b.toNat}

/-- The blocks whose bits are set. -/
def usedBlocks (sb : Superblock) (d : Disk) : Set ℕ := {c | c < sb.size ∧ bitAt sb d c = true}

/-- A call changes the bits as it changes the blocks in use. -/
theorem MetaUsed.step (h : MetaUsed sb d) (hok : sb.Ok) {op : AllocOp} (hs : AllocStep sb d op d') :
    MetaUsed sb d' ∧ usedBlocks sb d' = op.apply (usedBlocks sb d) := by
  have hmeta : ∀ c < sb.nmeta, c < sb.size := fun c hc => hc.trans_le hok.data
  cases op with
  | balloc b =>
    have hspec := balloc_spec hok h.used hs
    refine ⟨⟨hspec.super.trans h.super, fun c hc => ?_⟩, ?_⟩
    · rw [hspec.bit (hmeta c hc), h.used c hc, ite_self]
    · ext c
      simp only [usedBlocks, AllocOp.apply, Set.mem_insert_iff, Set.mem_ofPred_eq]
      constructor
      · rintro ⟨hc, hbit⟩
        rw [hspec.bit hc] at hbit
        split_ifs at hbit with hbc
        · exact .inl hbc.symm
        · exact .inr ⟨hc, hbit⟩
      · rintro (rfl | ⟨hc, hbit⟩)
        · exact ⟨hspec.data.2, by rw [hspec.bit hspec.data.2, if_pos rfl]⟩
        · exact ⟨hc, by rw [hspec.bit hc, hbit, ite_self]⟩
  | bfree b =>
    obtain ⟨hdata, hb⟩ := hs
    obtain ⟨d₁, hb₁, hspec⟩ := bfree_spec hok h.super hdata.2 (h.frees hb).1
    obtain rfl : d₁ = d' := Except.ok.inj (hb₁.symm.trans hb)
    refine ⟨⟨hspec.super.trans h.super, fun c hc => ?_⟩, ?_⟩
    · rw [hspec.bit (hmeta c hc), if_neg, h.used c hc]
      rintro rfl
      exact hdata.1.not_gt hc
    · ext c
      simp only [usedBlocks, AllocOp.apply, Set.mem_sdiff, Set.mem_singleton_iff, Set.mem_ofPred_eq]
      constructor
      · rintro ⟨hc, hbit⟩
        rw [hspec.bit hc] at hbit
        split_ifs at hbit with hbc
        exact ⟨⟨hc, hbit⟩, Ne.symm hbc⟩
      · rintro ⟨⟨hc, hbit⟩, hne⟩
        exact ⟨hc, by rw [hspec.bit hc, if_neg (Ne.symm hne), hbit]⟩

/-- **A run** changes the bits as its calls change the blocks in use. -/
theorem MetaUsed.run (hok : sb.Ok) {ops : List AllocOp} : ∀ {d}, MetaUsed sb d → AllocRun sb d ops d' →
    MetaUsed sb d' ∧ usedBlocks sb d' = ops.foldl AllocOp.apply (usedBlocks sb d) := by
  induction ops with
  | nil =>
    rintro d h rfl
    exact ⟨h, rfl⟩
  | cons op ops ih =>
    rintro d h ⟨d₁, hs, hr⟩
    obtain ⟨h₁, hused⟩ := h.step hok hs
    rw [List.foldl_cons, ← hused]
    exact ih h₁ hr

theorem AllocRun.split {o₁ o₂ : List AllocOp} : ∀ {d}, AllocRun sb d (o₁ ++ o₂) d' →
    ∃ d₁, AllocRun sb d o₁ d₁ ∧ AllocRun sb d₁ o₂ d' := by
  induction o₁ with
  | nil => exact fun h => ⟨_, rfl, h⟩
  | cons op o₁ ih =>
    rintro d ⟨d₁, hs, hr⟩
    obtain ⟨d₂, h₁, h₂⟩ := ih hr
    exact ⟨d₂, ⟨d₁, hs, h₁⟩, h₂⟩

/-- A block stays in use until it is freed. -/
theorem mem_foldl_apply {ops : List AllocOp} {used : Set ℕ} (hb : b.toNat ∈ used)
    (hops : .bfree b ∉ ops) : b.toNat ∈ ops.foldl AllocOp.apply used := by
  induction ops generalizing used with
  | nil => exact hb
  | cons op ops ih =>
    refine ih ?_ fun hm => hops (List.mem_cons_of_mem op hm)
    cases op with
    | balloc c => exact Set.mem_insert_of_mem _ hb
    | bfree c =>
      refine ⟨hb, fun heq => hops ?_⟩
      rw [UInt32.toNat_inj.1 heq]
      exact List.mem_cons_self

/-- A block is not handed out again before it is freed. -/
theorem MetaUsed.not_twice (h : MetaUsed sb d) (hok : sb.Ok) {o₁ o₂ o₃ : List AllocOp}
    (hr : AllocRun sb d (o₁ ++ .balloc b :: (o₂ ++ .balloc b :: o₃)) d') : .bfree b ∈ o₂ := by
  by_contra hno
  obtain ⟨d₁, hr₁, d₂, hs, hr₂⟩ := hr.split
  obtain ⟨d₃, hr₃, d₄, hs', -⟩ := hr₂.split
  obtain ⟨h₂, hused⟩ := ((h.run hok hr₁).1).step hok hs
  obtain ⟨h₃, hused₃⟩ := h₂.run hok hr₃
  have hmem : b.toNat ∈ usedBlocks sb d₃ := by
    rw [hused₃]
    refine mem_foldl_apply ?_ hno
    rw [hused]
    exact Set.mem_insert _ _
  have hclear := (h₃.allocates hok hs').clear
  rw [hmem.2] at hclear
  cases hclear

end

/-- **The block allocator.** -/
theorem balloc_bfree_spec {sb : Superblock} (hok : sb.Ok) {d : Disk} (h : MetaUsed sb d) :
    ((∃ e, balloc sb d = .error e) ↔ ∀ c < sb.size, bitAt sb d c = true) ∧
    (∀ b d', balloc sb d = .ok (b, d') → Allocates sb d b d') ∧
    (∀ b : BlockNo, b.toNat < sb.size → bitAt sb d b.toNat = true →
      ∃ d', bfree d b = .ok d' ∧ Frees sb d b d') ∧
    ∀ ops d', AllocRun sb d ops d' →
      usedBlocks sb d' = ops.foldl AllocOp.apply (usedBlocks sb d) ∧
      ∀ o₁ b o₂ o₃, ops = o₁ ++ .balloc b :: (o₂ ++ .balloc b :: o₃) → .bfree b ∈ o₂ := by
  refine ⟨balloc_error_iff sb d, fun b d' hb => h.allocates hok hb, fun b hlt hused => ?_,
    fun ops d' hr => ⟨(h.run hok hr).2, ?_⟩⟩
  · obtain ⟨d', hb, -⟩ := bfree_spec hok h.super hlt hused
    exact ⟨d', hb, (h.frees hb).2⟩
  · rintro o₁ b o₂ o₃ rfl
    exact h.not_twice hok hr

/-! A disk with two bit map blocks; the first one is full. -/

def twoSb : Superblock := ⟨5000, 4995, 6, 0, 2, 2, 3⟩

def twoDisk : Disk := fun b j =>
  if b = 1 then ([0x88, 0x13, 0, 0, 0x83, 0x13, 0, 0, 6, 0, 0, 0, 0, 0, 0, 0, 2, 0, 0, 0, 2, 0, 0, 0, 3] :
    List UInt8).getD j 0
  else if b = 3 then 0xff
  else 0

theorem twoDisk_metaUsed : MetaUsed twoSb twoDisk := ⟨by decide +kernel, by decide +kernel⟩

/-- The bit found is the first one of the second block. -/
theorem balloc_twoDisk : ∃ d', balloc twoSb twoDisk = .ok (4096, d') ∧
    Allocates twoSb twoDisk 4096 d' := by
  have hok : twoSb.Ok := ⟨by decide, by decide, by decide, by decide⟩
  have hb : (balloc twoSb twoDisk).toOption.map Prod.fst = some 4096 := by decide +kernel
  cases h : balloc twoSb twoDisk with
  | error e =>
    rw [h] at hb
    cases hb
  | ok r =>
    rw [h] at hb
    obtain ⟨b, d'⟩ := r
    cases hb
    exact ⟨d', rfl, (balloc_bfree_spec hok twoDisk_metaUsed).2.1 _ _ h⟩

end Xv6

/-
  What a transaction of `filewrite` logs.

  `begin_op` reserves `MAXOPBLOCKS` blocks of the log for an operation, while
  `filewrite` derives the size of its chunks from `LOGSIZE`.  The functions
  `…Log` list the blocks that `balloc`, `bmap` and `writei` pass to `log_write`,
  in order; `cost` counts them without repetitions from the state before the
  call.
-/
import Mathlib.Data.Finset.Card
import Mathlib.Order.Interval.Finset.Nat
import Xv6.Fs.Filewrite

namespace Xv6

open Fallible Bytes Function

/-! ## The calls of `log_write` -/

/-- `balloc` logs the bit map block, and `bzero` the new block. -/
def ballocLog (sb : Superblock) (d : Disk) : List BlockNo :=
  match balloc sb d with
  | .ok (b, _) => [sb.bblock b.toNat, b]
  | .error _ => []

def loadIndirectLog (sb : Superblock) (d : Disk) (di : Dinode) : List BlockNo :=
  if di.addrs iaddr = 0 then ballocLog sb d else []

/-- The block `ind` of indirect entries is logged when `bmap` fills an entry. -/
def entryLog (sb : Superblock) (d : Disk) (ind : BlockNo) (bn : ℕ) : List BlockNo :=
  if indirect (d ind) (bn - NDIRECT) = 0 then
    ballocLog sb d ++ match balloc sb d with
      | .ok _ => [ind]
      | .error _ => []
  else []

def bmapLog (sb : Superblock) (d : Disk) (di : Dinode) (bn : ℕ) : List BlockNo :=
  if h : bn < NDIRECT then
    if di.addrs ⟨bn, lt_naddrs h⟩ = 0 then ballocLog sb d else []
  else if bn - NDIRECT < NINDIRECT then
    loadIndirectLog sb d di ++ match loadIndirect sb d di with
      | .ok (ind, _, d) => entryLog sb d ind bn
      | .error _ => []
  else []

/-- The loop of `writei` logs every block that it stores to. -/
def writeiLoopLog (sb : Superblock) : ℕ → Disk → Dinode → ℕ → List UInt8 → List BlockNo
  | 0, _, _, _, _ => []
  | fuel + 1, d, di, off, src =>
    if src = [] then []
    else
      bmapLog sb d di (off / BSIZE) ++ match bmap sb d di (off / BSIZE) with
        | .ok (b, di, d) =>
          let m := min src.length (BSIZE - off % BSIZE)
          let d := update d b (setBytes (d b) (off % BSIZE) (src.take m))
          b :: writeiLoopLog sb fuel d di (off + m) (src.drop m)
        | .error _ => []

/-- The blocks that `writei` logs; devices have none. -/
def writeiLog (sb : Superblock) (d : Disk) (ip : Inode) (src : List UInt8) (off : ℕ) :
    List BlockNo :=
  let n := src.length
  if ip.di.type = T_DEV then []
  else if ip.di.size.toNat < off ∨ (off + n) % 2 ^ 32 < off then []
  else if MAXFILE * BSIZE < (off + n) % 2 ^ 32 then []
  else
    writeiLoopLog sb n d ip.di off src ++ match writeiLoop sb n d ip.di off src with
      | .ok _ => if 0 < n ∧ ip.di.size.toNat < off + n then [sb.iblock ip.inum] else []
      | .error _ => []

/-! ## Their number -/

/-- The blocks of a file with bytes in `[off, off + n)`. -/
def touched (off n : ℕ) : Finset ℕ :=
  Finset.Ico (off / BSIZE) (if n = 0 then off / BSIZE else (off + n - 1) / BSIZE + 1)

/-- How many blocks `writei` logs for `n` bytes at `off`: the blocks of data, the bit map block if
one of them is missing, the indirect block if one of its entries is missing, and the block of
the inode if the file grows. -/
def cost (di : Dinode) (d : Disk) (off n : ℕ) : ℕ :=
  (touched off n).card +
    (if ∃ k ∈ touched off n, di.slot d (fileSlot k) = 0 then 1 else 0) +
    (if ∃ k ∈ touched off n, NDIRECT ≤ k ∧ di.slot d (fileSlot k) = 0 then 1 else 0) +
    if di.size.toNat < off + n then 1 else 0

section
variable {sb : Superblock} {tab : ℕ → Dinode} {d d' : Disk} {i : ℕ} {b : BlockNo} {di : Dinode}

/-- With one bit map block, that is the one that `balloc` logs. -/
theorem ballocLog_eq (hok : sb.Ok) (hmeta : ∀ c < sb.nmeta, bitAt sb d c = true)
    (hone : sb.size ≤ BPB) (hb : balloc sb d = .ok (b, d')) :
    ballocLog sb d = [sb.bblock 0, b] := by
  have hlt : b.toNat < BPB := (balloc_spec hok hmeta hb).data.2.trans_le hone
  have hblock : sb.bblock b.toNat = sb.bblock 0 := by
    rw [Superblock.bblock, Superblock.bblock, Nat.div_eq_of_lt hlt, Nat.zero_div]
  rw [ballocLog, hb]
  exact congrArg (· :: [b]) hblock

theorem mem_entryLog (hok : sb.Ok) (hmeta : ∀ c < sb.nmeta, bitAt sb d c = true)
    (hone : sb.size ≤ BPB) {ind : BlockNo} {bn : ℕ}
    (h0 : indirect (d ind) (bn - NDIRECT) = 0) (hb : balloc sb d = .ok (b, d')) (x : BlockNo) :
    x ∈ entryLog sb d ind bn ↔ x = sb.bblock 0 ∨ x = b ∨ x = ind := by
  rw [entryLog, if_pos h0, ballocLog_eq hok hmeta hone hb, hb]
  simp

/-- **What `bmap` logs.** -/
theorem mem_bmapLog (h : Refs sb tab d) (hone : sb.size ≤ BPB) {bn : ℕ}
    (hok : bmap sb d (tab i) bn = .ok (b, di, d')) (x : BlockNo) :
    x ∈ bmapLog sb d (tab i) bn ↔ (tab i).slot d (fileSlot bn) = 0 ∧
      (x = sb.bblock 0 ∨ x = b ∨ NDIRECT ≤ bn ∧ x = di.addrs iaddr) := by
  rcases Nat.lt_or_ge bn NDIRECT with hbn | hbn
  · rw [fileSlot_direct hbn]
    simp only [bmap, dif_pos hbn] at hok
    simp only [bmapLog, dif_pos hbn, Dinode.slot]
    split_ifs at hok ⊢ with h0
    · obtain ⟨⟨b₁, d₁⟩, hb, hok⟩ := bind_ok hok
      cases hok
      rw [ballocLog_eq h.ok h.nmeta hone hb]
      simp [h0, hbn.not_ge]
    · simp [h0]
  · simp only [bmap, dif_neg hbn.not_gt] at hok
    split_ifs at hok with hn
    rw [fileSlot_indirect hbn hn]
    obtain ⟨⟨ind, di₁, d₁⟩, hload, hok⟩ := bind_ok hok
    simp only [bmapLog, dif_neg hbn.not_gt, if_pos hn, hload, loadIndirectLog]
    simp only [loadIndirect] at hload
    simp only [Dinode.slot]
    split_ifs at hload ⊢ with hia
    · -- a new indirect block has no entries
      obtain ⟨⟨b₁, d₂⟩, hb₁, hload⟩ := bind_ok hload
      cases hload
      have hB := balloc_spec h.ok h.nmeta hb₁
      have h0 : indirect (d₂ b₁) (bn - NDIRECT) = 0 := by
        rw [hB.block hB.data, if_pos rfl]
        exact indirect_zero _
      have hmeta : ∀ c < sb.nmeta, bitAt sb d₂ c = true := fun c hc => by
        rw [hB.bit (hc.trans_le h.ok.data)]
        split_ifs
        · rfl
        · exact h.nmeta c hc
      rw [if_pos h0] at hok
      obtain ⟨⟨b₂, d₃⟩, hb₂, hok⟩ := bind_ok hok
      cases hok
      rw [List.mem_append, mem_entryLog h.ok hmeta hone h0 hb₂,
        ballocLog_eq h.ok h.nmeta hone hb₁]
      simp only [List.mem_cons, List.not_mem_nil, update_self, hbn]
      grind
    · cases hload
      rw [List.nil_append]
      split_ifs at hok with h0
      · obtain ⟨⟨b₂, d₃⟩, hb₂, hok⟩ := bind_ok hok
        cases hok
        rw [mem_entryLog h.ok h.nmeta hone h0 hb₂]
        simp [h0, hbn]
      · rw [entryLog, if_neg h0]
        simp [h0]

theorem touched_zero (off : ℕ) : touched off 0 = ∅ := by
  rw [touched, if_pos rfl, Finset.Ico_self]

/-- The first round of the loop takes the first block. -/
theorem touched_step {off n m : ℕ} (hn : 0 < n) (hm : m = min n (BSIZE - off % BSIZE)) :
    touched off n = insert (off / BSIZE) (touched (off + m) (n - m)) := by
  ext k
  simp only [touched, if_neg hn.ne', Finset.mem_insert, Finset.mem_Ico, BSIZE] at hm ⊢
  split_ifs with h0 <;> omega

/-- The first block does not come again. -/
theorem not_mem_touched {off n m : ℕ} (hm : m = min n (BSIZE - off % BSIZE)) :
    off / BSIZE ∉ touched (off + m) (n - m) := by
  simp only [touched, Finset.mem_Ico, BSIZE] at hm ⊢
  split_ifs with h0 <;> omega

/-- What the loop of `writei` leaves behind: the blocks it went through are there, and it has
logged them, the bit map block and the indirect block as needed. -/
structure Logged (sb : Superblock) (tab : ℕ → Dinode) (d : Disk) (i off n : ℕ) (di : Dinode)
    (d' : Disk) (log : List BlockNo) : Prop extends Grown sb tab d i di d' where
  there : ∀ k ∈ touched off n, k < MAXFILE ∧ di.slot d' (fileSlot k) ≠ 0
  indirect : ∀ k ∈ touched off n, NDIRECT ≤ k → di.addrs iaddr ≠ 0
  mem : ∀ x, x ∈ log ↔ (∃ k ∈ touched off n, x = di.slot d' (fileSlot k)) ∨
    ((∃ k ∈ touched off n, (tab i).slot d (fileSlot k) = 0) ∧ x = sb.bblock 0) ∨
    (∃ k ∈ touched off n, NDIRECT ≤ k ∧ (tab i).slot d (fileSlot k) = 0) ∧
      x = di.addrs iaddr

theorem writeiLoopLog_spec (hi : i < sb.ninodes) (hone : sb.size ≤ BPB) (fuel : ℕ) :
    ∀ {tab : ℕ → Dinode} {d : Disk} {off : ℕ} {src : List UInt8} {di : Dinode},
    Refs sb tab d → (tab i).type ≠ 0 → src.length ≤ fuel →
    writeiLoop sb fuel d (tab i) off src = .ok (di, d') →
    Logged sb tab d i off src.length di d' (writeiLoopLog sb fuel d (tab i) off src) := by
  have hnil : ∀ {tab : ℕ → Dinode} {d : Disk} {off : ℕ}, Refs sb tab d →
      Logged sb tab d i off 0 (tab i) d [] := by
    intro tab d off h
    refine ⟨.refl h i, ?_, ?_, ?_⟩ <;> simp [touched_zero]
  induction fuel with
  | zero =>
    intro tab d off src di h ht hfuel hok
    obtain rfl : src = [] := List.eq_nil_of_length_eq_zero (Nat.le_zero.1 hfuel)
    cases hok
    exact hnil h
  | succ fuel ih =>
    intro tab d off src di h ht hfuel hok
    rw [writeiLoop] at hok
    rw [writeiLoopLog]
    split_ifs at hok ⊢ with hsrc
    · cases hok
      rw [hsrc]
      exact hnil h
    · obtain ⟨⟨b, di₁, d₁⟩, hb, hok⟩ := bind_ok hok
      simp only [hb]
      obtain ⟨hpos, -⟩ := round_le 0 off hsrc
      have hlen : 0 < src.length := List.length_pos_iff.2 hsrc
      generalize hm : min src.length (BSIZE - off % BSIZE) = m at *
      have hlog := mem_bmapLog h hone hb
      have hB := bmap_spec h hi ht hb
      have hself : update tab i di₁ i = di₁ := update_self ..
      have ht₁ : di₁.type ≠ 0 := by rw [hB.type_eq]; exact ht
      obtain ⟨hg, hslot⟩ := hB.refs.write hi (by rwa [hself]) (k := off / BSIZE)
        (by rw [hself]; exact hB.addr) hB.pos
        (setBytes (d₁ b) (off % BSIZE) (src.take m))
      have hr := hg.refs
      rw [update_eq_self] at hr
      rw [hself] at hg hslot
      rw [← hself] at hok
      have hL := ih hr (by rwa [hself]) (by rw [List.length_drop]; omega) hok
      rw [hself, List.length_drop] at hL
      generalize writeiLoopLog sb fuel _ di₁ (off + m) (src.drop m) = rest at hL ⊢
      set d₂ := update d₁ b (setBytes (d₁ b) (off % BSIZE) (src.take m))
      have hstep := touched_step hlen hm.symm
      have hnew : off / BSIZE ∉ touched (off + m) (src.length - m) := not_mem_touched hm.symm
      -- the block of this round stays where it is
      have hblock : di.slot d' (fileSlot (off / BSIZE)) = b := by
        have h1 : di₁.slot d₂ (fileSlot (off / BSIZE)) = b := by rw [hslot, hB.addr]
        have h2 := hL.keep (t := fileSlot (off / BSIZE)) (by rw [hself, h1]; exact hB.pos)
        rw [h2, hself, h1]
      have hind : NDIRECT ≤ off / BSIZE → di.addrs iaddr = di₁.addrs iaddr := fun hle => by
        have h2 := hL.keep (t := .addr iaddr) (by rw [hself]; exact hB.iaddr hle)
        rwa [hself] at h2
      -- and the other blocks are missing as before
      have hmiss : ∀ k ∈ touched (off + m) (src.length - m),
          ((update tab i di₁ i).slot d₂ (fileSlot k) = 0 ↔
            (tab i).slot d (fileSlot k) = 0) := by
        intro k hk
        have hne : k ≠ off / BSIZE := fun h0 => hnew (h0 ▸ hk)
        rw [hself, hslot]
        constructor
        · intro h0
          by_contra h1
          exact h1 (by rw [← hB.keep h1, h0])
        · intro h0
          by_contra h1
          rcases hB.only h1 with h2 | h2 | ⟨h2, -⟩
          · exact h2 h0
          · exact hne (fileSlot_inj (hL.there k hk).1 hB.range h2)
          · exact fileSlot_ne k h2
      refine ⟨(hB.toGrown.trans hg).trans hL.toGrown, ?_, ?_, fun x => ?_⟩
      · rw [hstep]
        refine Finset.forall_mem_insert _ _ _ |>.2 ⟨⟨hB.range, ?_⟩, hL.there⟩
        rw [hblock]
        exact hB.pos
      · rw [hstep]
        refine Finset.forall_mem_insert _ _ _ |>.2 ⟨fun hle => ?_, hL.indirect⟩
        rw [hind hle]
        exact hB.iaddr hle
      · rw [hstep, List.mem_append, List.mem_cons, hlog, hL.mem]
        have hex₁ := exists_congr fun k => and_congr_right (hmiss k)
        have hex₂ := exists_congr fun k =>
          and_congr_right fun hk => and_congr_right fun (_ : NDIRECT ≤ k) => hmiss k hk
        have hadd : (NDIRECT ≤ off / BSIZE ∧ x = di₁.addrs iaddr) ↔
            (NDIRECT ≤ off / BSIZE ∧ x = di.addrs iaddr) :=
          and_congr_right fun hle => by rw [hind hle]
        rw [hex₁, hex₂, hadd]
        simp only [Finset.exists_mem_insert, hblock]
        generalize (∃ k ∈ touched (off + m) (src.length - m), x = di.slot d' (fileSlot k)) = E₀
        generalize (∃ k ∈ touched (off + m) (src.length - m),
          (tab i).slot d (fileSlot k) = 0) = E₁
        generalize (∃ k ∈ touched (off + m) (src.length - m),
          NDIRECT ≤ k ∧ (tab i).slot d (fileSlot k) = 0) = E₂
        clear hex₁ hex₂ hadd hmiss hind hL hstep hnew
        grind

/-! ## The budget -/

theorem mem_insert_if {α : Type} [DecidableEq α] {s : Finset α} {a x : α} {p : Prop} [Decidable p] :
    x ∈ (if p then insert a s else s) ↔ p ∧ x = a ∨ x ∈ s := by
  split_ifs with hp <;> simp [hp]

theorem card_insert_if {α : Type} [DecidableEq α] {s : Finset α} {a : α} {p : Prop} [Decidable p]
    (h : p → a ∉ s) : (if p then insert a s else s).card = s.card + if p then 1 else 0 := by
  split_ifs with hp
  · exact Finset.card_insert_of_notMem (h hp)
  · rfl

section
variable {off n : ℕ} {log : List BlockNo}

/-- The blocks of data, one for each block of the file. -/
def dataBlocks (di : Dinode) (d : Disk) (off n : ℕ) : Finset BlockNo :=
  (touched off n).image fun k => di.slot d (fileSlot k)

theorem Logged.isData (h : Logged sb tab d i off n di d' log) (hi : i < sb.ninodes)
    (ht : (tab i).type ≠ 0) {s : Slot} (hs : di.slot d' s ≠ 0) : sb.IsData (di.slot d' s) := by
  have hself : update tab i di i = di := update_self ..
  have := h.refs.used_slot hi (s := s) (by rw [hself, h.type_eq]; exact ht) (by rwa [hself])
  rw [hself] at this
  exact this.1

/-- Different places of the file have different blocks. -/
theorem Logged.slot_inj (h : Logged sb tab d i off n di d' log) (hi : i < sb.ninodes)
    (ht : (tab i).type ≠ 0) {s t : Slot} (hs : di.slot d' s ≠ 0)
    (heq : di.slot d' s = di.slot d' t) : s = t := by
  have hself : update tab i di i = di := update_self ..
  have htype : (update tab i di i).type ≠ 0 := by rw [hself, h.type_eq]; exact ht
  by_contra hne
  have := h.refs.slot_ne hi hi htype htype (s := s) (t := t) (by rwa [hself])
    fun hc => hne (Prod.mk.inj hc).2
  rw [hself] at this
  exact this heq

theorem Logged.card_dataBlocks (h : Logged sb tab d i off n di d' log) (hi : i < sb.ninodes)
    (ht : (tab i).type ≠ 0) : (dataBlocks di d' off n).card = (touched off n).card := by
  refine Finset.card_image_of_injOn fun k hk l hl heq => ?_
  have hk := h.there k hk
  exact fileSlot_inj hk.1 (h.there l hl).1 (h.slot_inj hi ht hk.2 heq)

/-- The blocks logged for the file and, if `p`, for the inode. -/
theorem Logged.card (h : Logged sb tab d i off n di d' log) (hi : i < sb.ninodes)
    (ht : (tab i).type ≠ 0) (p : Prop) [Decidable p] :
    (log ++ if p then [sb.iblock i] else []).toFinset.card = (touched off n).card +
      (if ∃ k ∈ touched off n, (tab i).slot d (fileSlot k) = 0 then 1 else 0) +
      (if ∃ k ∈ touched off n, NDIRECT ≤ k ∧ (tab i).slot d (fileSlot k) = 0 then 1 else 0) +
      if p then 1 else 0 := by
  have hok := h.refs.ok
  have hsize : 0 < sb.size := Nat.lt_of_lt_of_le (Nat.succ_pos _) hok.data
  have hdata : ∀ x ∈ dataBlocks di d' off n, sb.IsData x := by
    intro x hx
    obtain ⟨k, hk, rfl⟩ := Finset.mem_image.1 hx
    exact h.isData hi ht (h.there k hk).2
  set P₁ := ∃ k ∈ touched off n, (tab i).slot d (fileSlot k) = 0
  set P₂ := ∃ k ∈ touched off n, NDIRECT ≤ k ∧ (tab i).slot d (fileSlot k) = 0
  set S₁ := if P₁ then insert (sb.bblock 0) (dataBlocks di d' off n) else dataBlocks di d' off n
  set S₂ := if P₂ then insert (di.addrs iaddr) S₁ else S₁
  have hset : (log ++ if p then [sb.iblock i] else []).toFinset =
      if p then insert (sb.iblock i) S₂ else S₂ := by
    ext x
    have hlast : x ∈ (if p then [sb.iblock i] else []) ↔ p ∧ x = sb.iblock i := by
      split_ifs with hp <;> simp [hp]
    have hx : x ∈ dataBlocks di d' off n ↔ ∃ k ∈ touched off n, x = di.slot d' (fileSlot k) := by
      simp only [dataBlocks, Finset.mem_image, eq_comm]
    rw [List.mem_toFinset, List.mem_append, hlast, h.mem, mem_insert_if, mem_insert_if,
      mem_insert_if, hx]
    constructor
    · rintro ((h | h | h) | h)
      exacts [.inr (.inr (.inr h)), .inr (.inr (.inl h)), .inr (.inl h), .inl h]
    · rintro (h | h | h | h)
      exacts [.inr h, .inl (.inr (.inr h)), .inl (.inr (.inl h)), .inl (.inl h)]
  have hb₁ : P₁ → sb.bblock 0 ∉ dataBlocks di d' off n := fun _ hx =>
    hok.bblock_ne_data hsize (hdata _ hx) rfl
  have hb₂ : P₂ → di.addrs iaddr ∉ S₁ := by
    rintro ⟨k, hk, hle, -⟩ hx
    have hia := h.indirect k hk hle
    rcases mem_insert_if.1 hx with ⟨-, hx⟩ | hx
    · exact hok.bblock_ne_data hsize (h.isData (s := .addr iaddr) hi ht hia) hx.symm
    · obtain ⟨l, -, hl⟩ := Finset.mem_image.1 hx
      exact fileSlot_ne l (h.slot_inj (s := .addr iaddr) hi ht hia hl.symm).symm
  have hb₃ : p → sb.iblock i ∉ S₂ := by
    intro _ hx
    rcases mem_insert_if.1 hx with ⟨⟨k, hk, hle, -⟩, hx⟩ | hx
    · exact hok.iblock_ne_data hi (h.isData (s := .addr iaddr) hi ht (h.indirect k hk hle)) hx
    rcases mem_insert_if.1 hx with ⟨-, hx⟩ | hx
    · exact hok.iblock_ne_bblock hi hsize hx
    · exact hok.iblock_ne_data hi (hdata _ hx) rfl
  rw [hset, card_insert_if hb₃, card_insert_if hb₂, card_insert_if hb₁, h.card_dataBlocks hi ht]

end

/-- **The number of blocks that `writei` logs.** -/
theorem card_writeiLog {ip : Inode} {dev : Devsw} {src : List UInt8} {off : ℕ}
    {r : Option ℕ × Inode × Disk} (h : Refs sb tab d) (hi : ip.inum < sb.ninodes)
    (hdi : tab ip.inum = ip.di) (ht : ip.di.type = T_FILE) (hone : sb.size ≤ BPB)
    (hoff : off ≤ ip.di.size.toNat) (hsrc : src ≠ []) (hlen : src.length ≤ Filewrite.MAXWRITE)
    (hok : writei sb dev d ip src off = .ok r) :
    (writeiLog sb d ip src off).toFinset.card =
      if MAXFILE * BSIZE < off + src.length then 0 else cost ip.di d off src.length := by
  have htype : ip.di.type ≠ T_DEV := by rw [ht]; decide
  have hpos : 0 < src.length := List.length_pos_iff.2 hsrc
  have hsize : ip.di.size.toNat < 2 ^ 32 := ip.di.size.toNat_lt
  simp only [Filewrite.MAXWRITE, LOGSIZE, MAXOPBLOCKS] at hlen
  simp only [writei, if_neg htype] at hok
  simp only [writeiLog, if_neg htype]
  by_cases hmax : MAXFILE * BSIZE < off + src.length
  · -- `writei` refuses, also if the sum wraps around
    rw [if_pos hmax]
    simp only [MAXFILE, NDIRECT, NINDIRECT, BSIZE] at hmax ⊢
    by_cases hwrap : off + src.length < 2 ^ 32
    · rw [Nat.mod_eq_of_lt hwrap, if_pos hmax, ite_self]
      rfl
    · rw [if_pos (.inr (by omega))]
      rfl
  · have hfit : (off + src.length) % 2 ^ 32 = off + src.length :=
      Nat.mod_eq_of_lt (by simp only [MAXFILE, NDIRECT, NINDIRECT, BSIZE] at hmax; omega)
    have hin : ¬ (ip.di.size.toNat < off ∨ off + src.length < off) := by omega
    rw [hfit, if_neg hin, if_neg hmax] at hok ⊢
    rw [if_neg hmax]
    obtain ⟨⟨di, d₁⟩, hloop, -⟩ := bind_ok hok
    rw [← hdi] at hloop ht ⊢
    have htab : (tab ip.inum).type ≠ 0 := by rw [ht]; decide
    have hL := writeiLoopLog_spec hi hone src.length h htab le_rfl hloop
    simp only [hloop, hpos, true_and]
    generalize writeiLoopLog sb src.length d (tab ip.inum) off src = log at hL ⊢
    exact hL.card hi htab _

/-- **The transactions of `filewrite` and their budget.**  On a disk with one bit map block, a
section of `filewrite` that writes the first bytes of `data` at `off` passes at most
`MAXOPBLOCKS` blocks to `log_write` exactly if the chunk does not fit into the file, or its cost
is within the budget. -/
theorem filewrite_budget {ip : Inode} {dev : Devsw} {data : List UInt8} {off : ℕ}
    {r : Option ℕ × Inode × Disk} (h : Refs sb tab d) (hi : ip.inum < sb.ninodes)
    (hdi : tab ip.inum = ip.di) (ht : ip.di.type = T_FILE) (hsize : sb.size = FSSIZE)
    (hoff : off ≤ ip.di.size.toNat) (hdata : data ≠ [])
    (hok : writei sb dev d ip (data.take Filewrite.MAXWRITE) off = .ok r) :
    (writeiLog sb d ip (data.take Filewrite.MAXWRITE) off).toFinset.card ≤ MAXOPBLOCKS ↔
      MAXFILE * BSIZE < off + min data.length Filewrite.MAXWRITE ∨
      cost ip.di d off (min data.length Filewrite.MAXWRITE) ≤ MAXOPBLOCKS := by
  have hne : data.take Filewrite.MAXWRITE ≠ [] := by
    rw [Ne, List.take_eq_nil_iff]
    exact fun hc => hc.elim (by decide) hdata
  have hlen : (data.take Filewrite.MAXWRITE).length = min data.length Filewrite.MAXWRITE := by
    rw [List.length_take, min_comm]
  rw [card_writeiLog h hi hdi ht (by rw [hsize]; decide) hoff hne
    (hlen.le.trans (min_le_right _ _)) hok, hlen]
  split_ifs with hmax
  · exact iff_of_true (Nat.zero_le _) (.inl hmax)
  · exact (or_iff_right hmax).symm

end

/-! A disk of `FSSIZE` blocks with one empty file, as `mkfs` lays it out. -/

def mkfsSb : Superblock := ⟨1000, 941, 200, 30, 2, 32, 58⟩

def mkfsDisk : Disk := fun b j =>
  if b = 1 then ([232, 3, 0, 0, 173, 3, 0, 0, 200, 0, 0, 0, 30, 0, 0, 0, 2, 0, 0, 0, 32, 0, 0, 0, 58] :
    List UInt8).getD j 0
  else if b = 58 then if j.1 < 7 then 0xff else if j.1 = 7 then 0x07 else 0
  else if b = 32 then if j.1 = 64 then 2 else if j.1 = 70 then 1 else 0
  else 0

/-- The file, with no blocks. -/
def mkfsFile : Inode := ⟨1, 1, 1, true, ⟨T_FILE, 0, 0, 1, 0, fun _ => 0⟩⟩

/-- The inodes are zero from the size on. -/
theorem mkfsDisk_zero {i o : ℕ} (hi : i < 200) (ho : 64 * (i % 8) + 8 ≤ o)
    (ho' : o + 4 ≤ 64 * (i % 8) + 64) : leGet 4 (mkfsDisk (mkfsSb.iblock i)) o = 0 := by
  have hb : (mkfsSb.iblock i).toNat = i / 8 + 32 := by
    simp only [Superblock.iblock, mkfsSb, UInt32.toNat_ofNat', IPB, BSIZE]
    omega
  have hne : ∀ c : UInt32, c.toNat = 1 ∨ c.toNat = 58 → mkfsSb.iblock i ≠ c := by
    rintro c hc rfl
    omega
  rw [leGet_congr 4 (c := fun _ => 0) fun o' h1 h2 => ?_, leGet_zero]
  have h64 : o' ≠ 64 := by omega
  have h70 : o' ≠ 70 := by omega
  simp [byte, mkfsDisk, hne 1 (.inl rfl), hne 58 (.inr rfl), h64, h70]

theorem mkfsDisk_owned : Owned True mkfsSb mkfsDisk := by
  have hlow : ∀ c < 64, bitAt mkfsSb mkfsDisk c = decide (c < 59) := by decide +kernel
  refine empty_owned ⟨by decide, by decide, by decide, by decide⟩ (by decide +kernel)
    (fun c hc => ?_) (by decide) fun i hi => ⟨fun k => ?_, ?_⟩
  · change _ = decide (c < 59)
    rcases Nat.lt_or_ge c 64 with h | h
    · exact hlow c h
    · -- the bytes from 8 on are zero
      have hc : c < 1000 := hc
      have hb : mkfsSb.bblock c = 58 := by
        simp only [Superblock.bblock, mkfsSb, BPB, BSIZE, Nat.div_eq_of_lt (show c < 512 * 8 by omega)]
        rfl
      have h7 : ¬ c / 8 < 7 := by omega
      have h7' : c / 8 ≠ 7 := by omega
      have hbyte : byte (mkfsDisk 58) (c / 8) = 0 := by simp [byte, mkfsDisk, h7, h7']
      rw [bitAt, hb, bit, Nat.mod_eq_of_lt (by simp only [BPB, BSIZE]; omega), hbyte,
        decide_eq_false (by omega)]
      simp
  · have hk := k.isLt
    simp only [NDIRECT] at hk
    exact congrArg UInt32.ofNat (mkfsDisk_zero hi (by simp only [IPB, BSIZE]; omega)
      (by simp only [IPB, BSIZE]; omega))
  · exact congrArg UInt32.ofNat (mkfsDisk_zero hi le_rfl (by simp only [IPB, BSIZE]; omega))

theorem mkfsFile_di : dinodeAt mkfsSb mkfsDisk mkfsFile.inum = mkfsFile.di :=
  Dinode.ext (by decide) (by decide) (by decide) (by decide) (by decide) (funext (by decide +kernel))

/-- A chunk of 1000 bytes at offset 600. -/
theorem filewrite_budget_unaligned : ∃ d ip r, Refs mkfsSb (dinodeAt mkfsSb d) d ∧ ip.di.size = 600 ∧
    writei mkfsSb noDev d ip ((List.replicate 1000 2).take Filewrite.MAXWRITE) 600 = .ok r ∧
    (writeiLog mkfsSb d ip ((List.replicate 1000 2).take Filewrite.MAXWRITE) 600).toFinset.card ≤
      MAXOPBLOCKS := by
  have hok : (writei mkfsSb noDev mkfsDisk mkfsFile (List.replicate 600 1) 0).toOption.any fun r =>
      r.2.1.di.size = 600 ∧ r.2.1.di.type = T_FILE ∧ cost r.2.1.di r.2.2 600 1000 ≤ MAXOPBLOCKS ∧
      (writei mkfsSb noDev r.2.2 r.2.1 ((List.replicate 1000 2).take Filewrite.MAXWRITE) 600).isOk := by
    decide +kernel
  rcases hfirst : writei mkfsSb noDev mkfsDisk mkfsFile (List.replicate 600 1) 0 with e | ⟨_, ip, d⟩ <;>
    rw [hfirst] at hok
  · cases hok
  obtain ⟨hsize, htype, hcost, hr⟩ := of_decide_eq_true hok
  have hkept := writei_kept mkfsDisk_owned (by decide) (by decide) mkfsFile_di
    (by rw [List.length_replicate]; decide) hfirst
  have hinum : ip.inum = 1 := congrArg Inode.inum hkept.eq
  rcases hr' : writei mkfsSb noDev d ip ((List.replicate 1000 2).take Filewrite.MAXWRITE) 600 with e | r
  · change Except.isOk (writei mkfsSb noDev d ip _ 600) at hr
    rw [hr'] at hr
    cases hr
  refine ⟨d, ip, r, hkept.owned.refs, hsize, hr', (filewrite_budget hkept.owned.refs
    (by rw [hinum]; decide) (by rw [hinum]; exact hkept.self) htype rfl (by rw [hsize]; decide)
    (List.replicate_succ ▸ List.cons_ne_nil _ _) hr').2 (.inr ?_)⟩
  rwa [List.length_replicate]

/-- Nine blocks appended to an empty file: with the bit map and the inode these are eleven. -/
theorem filewrite_exceeds :
    Refs mkfsSb (dinodeAt mkfsSb mkfsDisk) mkfsDisk ∧
    dinodeAt mkfsSb mkfsDisk mkfsFile.inum = mkfsFile.di ∧
    (writei mkfsSb noDev mkfsDisk mkfsFile
      ((List.replicate 4608 0).take Filewrite.MAXWRITE) 0).isOk ∧
    (writeiLog mkfsSb mkfsDisk mkfsFile
      ((List.replicate 4608 0).take Filewrite.MAXWRITE) 0).toFinset.card = 11 := by
  have htake : (List.replicate 4608 (0 : UInt8)).take Filewrite.MAXWRITE =
      List.replicate 4608 0 := List.take_of_length_le (by rw [List.length_replicate]; decide)
  have hlen : (List.replicate 4608 (0 : UInt8)).length = 4608 := List.length_replicate
  rw [htake]
  have hok : (writei mkfsSb noDev mkfsDisk mkfsFile (List.replicate 4608 0) 0).isOk := by
    decide +kernel
  refine ⟨mkfsDisk_owned.refs, mkfsFile_di, hok, ?_⟩
  rcases hr : writei mkfsSb noDev mkfsDisk mkfsFile (List.replicate 4608 0) 0 with e | r
  · rw [hr] at hok
    cases hok
  · rw [card_writeiLog mkfsDisk_owned.refs (by decide) mkfsFile_di rfl (by decide) (by decide)
      (fun h0 => by rw [h0] at hlen; cases hlen) (by rw [hlen]; decide) hr, hlen]
    decide +kernel

end Xv6

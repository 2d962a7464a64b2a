/-
  The free list, and `free`.

  `Heap.Ok base h fl os` ties the memory to two lists of blocks: the free ones
  in the order of their addresses, which the links connect to a circle through
  `base`, and the outstanding ones.  Together they cover what `sbrk` returned.
  `free` moves a block from `os` to `fl`, joined with its free neighbours
  (`Heap.Ok.free`).
-/
import Mathlib.Data.List.Pairwise
import Xv6.User.Malloc

namespace Xv6

namespace Umalloc

open Extent Mem

/-! ## Memory -/

section
variable {m : Mem} {p q x : ℕ} {n : UInt32}

@[simp] theorem Mem.ptr_setPtr : (m.setPtr p q).ptr x = if x = p then q else m.ptr x := by
  unfold Mem.ptr Mem.setPtr
  by_cases h : x = p <;> simp [h]

@[simp] theorem Mem.size_setPtr : (m.setPtr p q).size x = m.size x := by
  unfold Mem.size Mem.setPtr
  by_cases h : x = p <;> simp [h]

@[simp] theorem Mem.ptr_setSize : (m.setSize p n).ptr x = m.ptr x := by
  unfold Mem.ptr Mem.setSize
  by_cases h : x = p <;> simp [h]

@[simp] theorem Mem.size_setSize : (m.setSize p n).size x = if x = p then n else m.size x := by
  unfold Mem.size Mem.setSize
  by_cases h : x = p <;> simp [h]

end

/-! ## The invariant -/

/-- The free blocks `fl` and the outstanding blocks `os` of a heap. -/
structure Heap.Ok (base : ℕ) (h : Heap) (fl os : List Extent) : Prop where
  /-- the links go round through `base` and the free blocks -/
  links : Ring.Path h.mem.ptr base (fl.map start) base
  freep : h.freep ∈ base :: fl.map start
  zero : h.mem.size base = 0
  /-- every block has a header with its size -/
  header : ∀ b ∈ fl ++ os, b.len = HDR * (h.mem.size b.start).toNat ∧ 0 < b.len
  /-- the free blocks are sorted, and no two are adjacent -/
  gaps : fl.Pairwise fun a b => a.stop < b.start
  /-- the blocks make up what `sbrk` returned -/
  cover : ∀ x, cover (fl ++ os) x = cover h.core x
  total : total (fl ++ os) = total h.core
  /-- `sbrk` does not return the same memory twice -/
  once : ∀ x, Extent.cover h.core x ≤ 1
  above : ∀ b ∈ h.core, base + HDR ≤ b.start
  bound : Extent.total h.core < 2 ^ 36

namespace Heap.Ok
variable {base : ℕ} {h : Heap} {fl os : List Extent}

theorem apart (hk : h.Ok base fl os) : (fl ++ os).Pairwise Apart :=
  pairwise_apart fun x => (hk.cover x).trans_le (hk.once x)

variable {b : Extent}

/-- Blocks lie in what `sbrk` returned. -/
theorem exists_core (hk : h.Ok base fl os) (hb : b ∈ fl ++ os) :
    ∃ c ∈ h.core, c.Has b.start := by
  have hx : b.Has b.start := ⟨Nat.le_refl _, Nat.lt_add_of_pos_right (hk.header b hb).2⟩
  rw [← cover_pos_iff, ← hk.cover]
  exact cover_pos_iff.2 ⟨b, hb, hx⟩

/-- All blocks stand above the static header. -/
theorem base_le (hk : h.Ok base fl os) (hb : b ∈ fl ++ os) : base + HDR ≤ b.start := by
  obtain ⟨c, hc, hcx⟩ := hk.exists_core hb
  exact (hk.above c hc).trans hcx.1

theorem base_lt (hk : h.Ok base fl os) (hb : b ∈ fl ++ os) : base < b.start :=
  Nat.lt_of_lt_of_le (Nat.lt_add_of_pos_right (by decide)) (hk.base_le hb)

end Heap.Ok

/-! ## The search of `free` -/

theorem sorted_starts {fl : List Extent} {base : ℕ} (hs : fl.Pairwise fun a b => a.stop < b.start)
    (hb : ∀ c ∈ fl, base < c.start) : (base :: fl.map start).Pairwise (· < ·) := by
  refine List.pairwise_cons.2 ⟨by simpa using hb, List.pairwise_map.2 (hs.imp fun h => ?_)⟩
  exact (Nat.le_add_right ..).trans_lt h

theorem last_starts {l : List Extent} {d : Extent} {base : ℕ} :
    (base :: (l ++ [d]).map start).getLast? = some d.start := by
  rw [List.map_append, ← List.cons_append, List.map_singleton, List.getLast?_concat]

theorem exists_last (a : ℕ) (l : List ℕ) : ∃ q, (a :: l).getLast? = some q :=
  ⟨_, List.getLast?_eq_getLast_of_ne_nil (by simp)⟩

theorem le_last {l : List ℕ} {p z : ℕ} (hs : l.Pairwise (· < ·)) (hp : l.getLast? = some p)
    (hz : z ∈ l) : z ≤ p := by
  obtain ⟨l, rfl⟩ := List.getLast?_eq_some_iff.1 hp
  rcases List.mem_append.1 hz with hz | hz
  · exact ((List.pairwise_append.1 hs).2.2 z hz p (by simp)).le
  · exact (List.mem_singleton.1 hz).le

variable {m : Mem}

/-- The search stops at the last node below the block. -/
theorem here_iff {base bp p x : ℕ} {l : List ℕ} (hr : Ring.Path m.ptr base l base)
    (hs : (base :: l).Pairwise (· < ·)) (hbase : base < bp) (hbp : bp ∉ l) (hp : p ∈ base :: l)
    (hlt : p < bp) (hmax : ∀ z ∈ base :: l, z < bp → z ≤ p) (hx : x ∈ base :: l) :
    here m bp x = true ↔ x = p := by
  have hxp := hmax x hx
  simp only [here, decide_eq_true_eq]
  rcases hr.succ hs hx with ⟨hlt', hsucc⟩ | ⟨hn, hlast⟩
  · have hnext := hmax _ (hr.next_mem hx)
    have hne : m.ptr x ≠ bp := by
      rintro rfl
      exact (List.mem_cons.1 (hr.next_mem hx)).elim hbase.ne' hbp
    have hsucc := hsucc p hp
    constructor
    · rintro (⟨h1, h2⟩ | ⟨h1, -⟩)
      · by_contra hxp'
        have := hsucc (lt_of_le_of_ne (hxp h1) hxp')
        omega
      · omega
    · rintro rfl
      have : bp < m.ptr x := by
        by_contra hle
        have := hnext (by omega)
        omega
      exact .inl ⟨hlt, this⟩
  · have h1 := hlast p hp
    have h2 := hlast base (by simp)
    rw [hn]
    omega

/-- The free blocks below and above an address. -/
theorem exists_split {fl : List Extent} {bp : ℕ} (hs : fl.Pairwise fun a b => a.stop < b.start)
    (hbp : ∀ c ∈ fl, c.start ≠ bp) :
    ∃ l₁ l₂, fl = l₁ ++ l₂ ∧ (∀ c ∈ l₁, c.start < bp) ∧ ∀ c ∈ l₂, bp < c.start := by
  induction fl with
  | nil => exact ⟨[], [], rfl, by simp, by simp⟩
  | cons a fl ih =>
    obtain ⟨hs₁, hs₂⟩ := List.pairwise_cons.1 hs
    by_cases ha : a.start < bp
    · obtain ⟨l₁, l₂, rfl, h₁, h₂⟩ := ih hs₂ fun c hc => hbp c (by simp [hc])
      exact ⟨a :: l₁, l₂, rfl, by simpa using ⟨ha, h₁⟩, h₂⟩
    · have ha : bp < a.start := lt_of_le_of_ne (not_lt.1 ha) (hbp a (by simp)).symm
      refine ⟨[], a :: fl, rfl, by simp, fun c hc => ?_⟩
      rcases List.mem_cons.1 hc with rfl | hc
      · exact ha
      · have := hs₁ c hc
        simp only [stop] at this
        omega

/-! ## The two joins of `free` -/

theorem toNat_size_add {m n : UInt32} (h : HDR * m.toNat + HDR * n.toNat < 2 ^ 36) :
    HDR * (m + n).toNat = HDR * m.toNat + HDR * n.toNat := by
  rw [UInt32.toNat_add, Nat.mod_eq_of_lt (by simp only [HDR] at h; omega),
    Nat.mul_add]

/-- What `bp` is after the first join: a block with a gap above it. -/
theorem joinUpper_spec {base bp p len : ℕ} {l : List Extent}
    (hlink : Ring.Path m.ptr p (l.map start) base) (hbase : base < bp)
    (hlen : len = HDR * (m.size bp).toNat)
    (hl : ∀ c ∈ l, c.len = HDR * (m.size c.start).toNat ∧ bp < c.start ∧ bp + len ≤ c.start)
    (hs : l.Pairwise fun a b => a.stop < b.start) (hb : len + total l < 2 ^ 36) :
    ∃ len' l', (∀ x, x ≠ bp → joinUpper m bp p x = m x) ∧
      Ring.Path (joinUpper m bp p).ptr bp (l'.map start) base ∧
      len' = HDR * ((joinUpper m bp p).size bp).toNat ∧ len ≤ len' ∧ l'.Sublist l ∧
      (∀ c ∈ l', bp + len' < c.start) ∧
      (∀ x, Extent.cover (⟨bp, len'⟩ :: l') x = Extent.cover (⟨bp, len⟩ :: l) x) ∧
      len' + total l' = len + total l := by
  have hplus : plus bp (m.size bp) = bp + len := by rw [hlen]; rfl
  unfold joinUpper
  rw [hplus]
  by_cases hc : ∃ c l', l = c :: l' ∧ bp + len = c.start
  · obtain ⟨c, l', rfl, hc⟩ := hc
    obtain ⟨hq, hlink⟩ : m.ptr p = c.start ∧ Ring.Path m.ptr c.start (l'.map start) base := hlink
    obtain ⟨hclen, hcbp, -⟩ := hl c (by simp)
    have hsz : HDR * (m.size bp + m.size c.start).toNat = len + c.len := by
      rw [toNat_size_add (by rw [← hlen, ← hclen]; simp at hb; omega), ← hlen, ← hclen]
    have hcov := @cover_join ⟨bp, len⟩ c hc
    rw [if_pos (hc.trans hq.symm), hq]
    refine ⟨len + c.len, l', fun x hx => ?_, ?_, ?_, Nat.le_add_right .., by simp, ?_, ?_, ?_⟩
    · simp [setPtr, setSize, hx]
    · refine hlink.head (by simp [hq]) fun x hx => ?_
      obtain ⟨d, hd, rfl⟩ := List.mem_map.1 hx
      simp [(hl d (by simp [hd])).2.1.ne']
    · rw [size_setPtr, size_setSize, if_pos rfl, hsz]
    · intro d hd
      have := (List.pairwise_cons.1 hs).1 d hd
      simp only [stop] at this
      omega
    · intro x
      have hcx := hcov x
      simp only [cover_cons, cover_nil] at hcx ⊢
      omega
    · simp [Nat.add_assoc]
  · have hq : bp + len ≠ m.ptr p := by
      intro hq
      cases l with
      | nil =>
        have hbase' : m.ptr p = base := hlink
        omega
      | cons c l => exact hc ⟨c, l, rfl, hq.trans hlink.1⟩
    rw [if_neg hq]
    refine ⟨len, l, fun x hx => ?_, ?_, ?_, le_rfl, .refl l, ?_, fun _ => rfl, rfl⟩
    · simp [setPtr, hx]
    · refine hlink.head (by simp) fun x hx => ?_
      obtain ⟨d, hd, rfl⟩ := List.mem_map.1 hx
      simp [(hl d hd).2.1.ne']
    · rw [size_setPtr, hlen]
    · intro d hd
      refine lt_of_le_of_ne (hl d hd).2.2 fun heq => ?_
      cases l with
      | nil => cases hd
      | cons c l =>
        rcases List.mem_cons.1 hd with rfl | hd
        · exact hc ⟨_, l, rfl, heq⟩
        · have h1 := (List.pairwise_cons.1 hs).1 d hd
          have h2 := (hl c (by simp)).2.2
          simp only [stop] at h1
          omega

/-- What `p`, the last node below `bp`, is after the second join. -/
theorem joinLower_spec {base bp p len : ℕ} {l₁ l₂ : List Extent} {q : ℕ}
    (hlink : Ring.Path m.ptr base (l₁.map start) q)
    (hlink₂ : Ring.Path m.ptr bp (l₂.map start) base)
    (hp : (base :: l₁.map start).getLast? = some p) (hbase : base < bp)
    (hzero : m.size base = 0)
    (hlen : len = HDR * (m.size bp).toNat)
    (hl₁ : ∀ c ∈ l₁, c.len = HDR * (m.size c.start).toNat ∧ base < c.start ∧ c.start < bp ∧
      c.stop ≤ bp)
    (hl₂ : ∀ c ∈ l₂, bp + len < c.start)
    (hs₁ : l₁.Pairwise fun a b => a.stop < b.start)
    (hs₂ : l₂.Pairwise fun a b => a.stop < b.start)
    (hb : total l₁ + len < 2 ^ 36) :
    ∃ b l, (∀ x, x ≠ b.start → (joinLower m bp p).size x = m.size x) ∧
      Ring.Path (joinLower m bp p).ptr base ((l ++ b :: l₂).map start) base ∧
      b.len = HDR * ((joinLower m bp p).size b.start).toNat ∧ len ≤ b.len ∧ l.Sublist l₁ ∧
      (b.start = bp ∨ ∃ d ∈ l₁, b.start = d.start) ∧ p ∈ base :: (l ++ [b]).map start ∧
      (l ++ b :: l₂).Pairwise (fun a b => a.stop < b.start) ∧
      (∀ x, Extent.cover (l ++ [b]) x = Extent.cover (l₁ ++ [⟨bp, len⟩]) x) ∧
      total (l ++ [b]) = total (l₁ ++ [⟨bp, len⟩]) := by
  have hne : ∀ d ∈ l₂, ∀ x, x ≤ bp → d.start ≠ x := fun d hd x hx => by
    have := hl₂ d hd
    omega
  unfold joinLower
  by_cases hc : ∃ l d, l₁ = l ++ [d] ∧ d.stop = bp
  · obtain ⟨l, d, rfl, hd⟩ := hc
    obtain rfl : d.start = p := Option.some.inj (last_starts.symm.trans hp)
    obtain ⟨hdlen, hbd, hdbp, -⟩ := hl₁ d (by simp)
    have hplus : plus d.start (m.size d.start) = bp := by rw [plus, ← hdlen]; exact hd
    have hsz : HDR * (m.size d.start + m.size bp).toNat = d.len + len := by
      rw [toNat_size_add (by rw [← hlen, ← hdlen]; simp at hb; omega), ← hlen, ← hdlen]
    have hcov := @cover_join d ⟨bp, len⟩ hd
    obtain ⟨hs₁, -, hsd⟩ := List.pairwise_append.1 hs₁
    have hld : ∀ a ∈ l, a.stop < d.start := fun a ha => hsd a ha d (by simp)
    rw [List.map_append, List.map_singleton] at hlink
    rw [if_pos hplus]
    refine ⟨⟨d.start, d.len + len⟩, l, fun x hx => ?_, ?_, ?_, Nat.le_add_left .., by simp,
      .inr ⟨d, by simp, rfl⟩, by simp, ?_, ?_, by simp⟩
    · rw [size_setPtr, size_setSize, if_neg hx]
    · rw [List.map_append, List.map_cons]
      refine Ring.path_append.2 ⟨(Ring.path_append.1 hlink).1.congr fun x hx => ?_,
        hlink₂.head (by simp) fun x hx => ?_⟩
      · suffices x ≠ d.start by simp [this]
        rcases List.mem_cons.1 hx with rfl | hx
        · exact hbd.ne
        · obtain ⟨a, ha, rfl⟩ := List.mem_map.1 hx
          have := hld a ha
          simp only [stop] at this
          omega
      · obtain ⟨a, ha, rfl⟩ := List.mem_map.1 hx
        simp [hne a ha d.start hdbp.le]
    · rw [size_setPtr, size_setSize, if_pos rfl, hsz]
    · refine List.pairwise_append.2 ⟨hs₁, List.pairwise_cons.2 ⟨fun c hc => ?_, hs₂⟩, ?_⟩
      · have := hl₂ c hc
        simp only [stop] at hd ⊢
        omega
      · intro a ha c hc
        rcases List.mem_cons.1 hc with rfl | hc
        · exact hld a ha
        · have h1 := hld a ha
          have h2 := hl₂ c hc
          omega
    · intro x
      have hcx := hcov x
      simp only [cover_append, cover_cons, cover_nil] at hcx ⊢
      omega
  · have hplus : plus p (m.size p) ≠ bp := by
      intro hpl
      rcases List.eq_nil_or_concat l₁ with rfl | ⟨l, d, rfl⟩
      · obtain rfl : base = p := by simpa using hp
        rw [plus, hzero] at hpl
        simp at hpl
        omega
      · rw [List.concat_eq_append] at hp hl₁ hc
        obtain rfl : d.start = p := Option.some.inj (last_starts.symm.trans hp)
        refine hc ⟨l, d, rfl, ?_⟩
        rw [plus, ← (hl₁ d (by simp)).1] at hpl
        exact hpl
    have hnd : (base :: l₁.map start).Nodup :=
      (sorted_starts hs₁ fun c hc => (hl₁ c hc).2.1).imp Nat.ne_of_lt
    have hpn : p ∈ base :: l₁.map start := List.mem_of_getLast? hp
    have hpbp : p < bp := by
      rcases List.mem_cons.1 hpn with rfl | hpn
      · exact hbase
      · obtain ⟨a, ha, rfl⟩ := List.mem_map.1 hpn
        exact (hl₁ a ha).2.2.1
    have hgap : ∀ a ∈ l₁, a.stop < bp := by
      intro a ha
      refine lt_of_le_of_ne (hl₁ a ha).2.2.2 fun heq => ?_
      rcases List.eq_nil_or_concat l₁ with rfl | ⟨l, d, rfl⟩
      · cases ha
      · rw [List.concat_eq_append] at ha hl₁ hc hs₁
        rcases List.mem_append.1 ha with ha | ha
        · have h1 := (List.pairwise_append.1 hs₁).2.2 a ha d (by simp)
          have h2 := (hl₁ d (by simp)).2.2.1
          omega
        · obtain rfl := List.mem_singleton.1 ha
          exact hc ⟨l, a, rfl, heq⟩
    rw [if_neg hplus]
    refine ⟨⟨bp, len⟩, l₁, fun x _ => size_setPtr, ?_, ?_, le_rfl, .refl l₁, .inl rfl,
      ?_, ?_, fun _ => rfl, rfl⟩
    · rw [List.map_append, List.map_cons]
      refine Ring.path_append.2 ⟨hlink.redirect hnd hp (by simp) fun x hx hxp => by simp [hxp],
        hlink₂.congr fun x hx => ?_⟩
      suffices x ≠ p by simp [this]
      rcases List.mem_cons.1 hx with rfl | hx
      · exact hpbp.ne'
      · obtain ⟨a, ha, rfl⟩ := List.mem_map.1 hx
        exact hne a ha p hpbp.le
    · rw [size_setPtr, hlen]
    · rw [List.map_append, ← List.cons_append]
      exact List.mem_append_left _ hpn
    · refine List.pairwise_append.2 ⟨hs₁, List.pairwise_cons.2 ⟨hl₂, hs₂⟩, ?_⟩
      intro a ha c hc
      rcases List.mem_cons.1 hc with rfl | hc
      · exact hgap a ha
      · exact (hgap a ha).trans ((Nat.le_add_right ..).trans_lt (hl₂ c hc))

namespace Heap.Ok
variable {base bp len : ℕ} {h : Heap} {fl os : List Extent}

/-- **`free` returns**, and moves the block to the free list, alone or joined with others. -/
theorem free (hk : h.Ok base fl (⟨bp, len⟩ :: os)) :
    ∃ h' fl', (∀ fuel, fl.length < fuel → Umalloc.free fuel h (bp + HDR) = some h') ∧
      h'.Ok base fl' os ∧ h'.core = h.core ∧ ∃ b ∈ fl', len ≤ b.len := by
  obtain ⟨-, hos, hcross⟩ := List.pairwise_append.1 hk.apart
  have hlen : len = HDR * (h.mem.size bp).toNat := (hk.header ⟨bp, len⟩ (by simp)).1
  have hpos : 0 < len := (hk.header ⟨bp, len⟩ (by simp)).2
  have hbp : base < bp := hk.base_lt (b := ⟨bp, len⟩) (by simp)
  have hside : ∀ c ∈ fl, c.stop ≤ bp ∨ bp + len ≤ c.start := fun c hc =>
    (hcross c hc ⟨bp, len⟩ (by simp)).le_or_le (hk.header c (by simp [hc])).2 hpos
  have hne : ∀ c ∈ fl, c.start ≠ bp := fun c hc heq => by
    have h1 := (hk.header c (by simp [hc])).2
    have h2 := hside c hc
    simp only [stop] at h2
    omega
  obtain ⟨l₁, l₂, rfl, hl₁, hl₂⟩ := exists_split hk.gaps hne
  have hbase : ∀ c ∈ l₁ ++ l₂, base < c.start := fun c hc => hk.base_lt (List.mem_append_left _ hc)
  have hsorted := sorted_starts hk.gaps hbase
  obtain ⟨p, hp⟩ := exists_last base (l₁.map start)
  have hbelow : ∀ z ∈ base :: l₁.map start, z < bp := by
    simpa [hbp] using hl₁
  have hpbp : p < bp := hbelow p (List.mem_of_getLast? hp)
  have hmax : ∀ z ∈ base :: (l₁ ++ l₂).map start, z < bp → z ≤ p := by
    intro z hz hlt
    rw [List.map_append, ← List.cons_append] at hz hsorted
    rcases List.mem_append.1 hz with hz | hz
    · exact le_last (List.pairwise_append.1 hsorted).1 hp hz
    · obtain ⟨c, hc, rfl⟩ := List.mem_map.1 hz
      exact absurd (hl₂ c hc) hlt.asymm
  -- the search stops at `p`
  have hseek : ∀ fuel, (l₁ ++ l₂).length < fuel →
      Ring.seek (here h.mem bp) h.mem.ptr fuel h.freep = some p := by
    intro fuel hfuel
    obtain ⟨l, hring, hperm⟩ := hk.links.from_mem hk.freep
    have hpm : p ∈ base :: (l₁ ++ l₂).map start := by
      rw [List.map_append, ← List.cons_append]
      exact List.mem_append_left _ (List.mem_of_getLast? hp)
    refine Ring.seek_ring hring (hperm.mem_iff.2 hpm) (fun x hx => ?_) fuel ?_
    · exact here_iff hk.links hsorted hbp (by simpa [or_imp, forall_and] using hne) hpm hpbp hmax (hperm.mem_iff.1 hx)
    · have := hperm.length_eq
      simp only [List.length_cons, List.length_map] at this
      omega
  obtain ⟨hs₁, hs₂, -⟩ := List.pairwise_append.1 hk.gaps
  have hlinks := hk.links
  rw [List.map_append] at hlinks
  obtain ⟨hlink₁, hlink₂⟩ := hlinks.split_last hp
  have htot := hk.total.trans_lt hk.bound
  simp only [total_append, total_cons] at htot
  have hup : ∀ c ∈ l₂, c.len = HDR * (h.mem.size c.start).toNat ∧ bp < c.start ∧
      bp + len ≤ c.start := fun c hc =>
    ⟨(hk.header c (by simp [hc])).1, hl₂ c hc, (hside c (by simp [hc])).resolve_left fun hle =>
      absurd ((Nat.le_add_right ..).trans hle) (not_le.2 (hl₂ c hc))⟩
  obtain ⟨len', l₂', hcell, hlink₂, hlen', hle', hsub₂, hgap₂, hcov₂, htot₂⟩ :=
    joinUpper_spec hlink₂ hbp hlen hup hs₂ (by omega)
  have hsz : ∀ x, x ≠ bp → (joinUpper h.mem bp p).size x = h.mem.size x := fun x hx =>
    congrArg Header.size (hcell x hx)
  have hlow : ∀ c ∈ l₁, c.len = HDR * ((joinUpper h.mem bp p).size c.start).toNat ∧
      base < c.start ∧ c.start < bp ∧ c.stop ≤ bp := fun c hc =>
    ⟨by rw [hsz _ (hl₁ c hc).ne]; exact (hk.header c (by simp [hc])).1, hbase c (by simp [hc]),
      hl₁ c hc, (hside c (by simp [hc])).resolve_right fun hle => by
        have := hl₁ c hc
        omega⟩
  have hlink₁ := hlink₁.congr fun x hx => congrArg Header.ptr (hcell x (hbelow x hx).ne)
  obtain ⟨b, l, hsize, hlinks, hblen, hle, hsub₁, hstart, hpm, hgaps, hcov, htot'⟩ :=
    joinLower_spec hlink₁ hlink₂ hp hbp ((hsz base hbp.ne).trans hk.zero) hlen' hlow hgap₂ hs₁
      (hs₂.sublist hsub₂) (by omega)
  simp only [total_append, total_cons, total_nil] at htot'
  have hbb : base < b.start := by
    rcases hstart with heq | ⟨d, hd, heq⟩
    · exact heq ▸ hbp
    · exact heq ▸ hbase d (by simp [hd])
  refine ⟨⟨joinLower (joinUpper h.mem bp p) bp p, p, h.core⟩, l ++ b :: l₂', fun fuel hf => ?_,
    ⟨hlinks, ?_, ?_, ?_, hgaps, fun x => ?_, ?_, hk.once, hk.above, hk.bound⟩, rfl, b, by simp,
    hle'.trans hle⟩
  · simp only [Umalloc.free, Nat.add_sub_cancel, hseek fuel hf]
    rfl
  · simp only [List.map_append, List.map_cons, List.map_nil, List.mem_cons, List.mem_append] at hpm ⊢
    tauto
  · rw [hsize base hbb.ne, hsz base hbp.ne, hk.zero]
  · -- the headers of the other blocks keep their sizes
    have hkeep : ∀ c ∈ l₁ ++ l₂ ++ ⟨bp, len⟩ :: os, c.start ≠ bp → c.start ≠ b.start →
        c.len = HDR * ((joinLower (joinUpper h.mem bp p) bp p).size c.start).toNat ∧ 0 < c.len := by
      intro c hc hcbp hcb
      rw [hsize _ hcb, hsz _ hcbp]
      exact hk.header c hc
    obtain ⟨-, hgb, hgl⟩ := List.pairwise_append.1 hgaps
    intro c hc
    rcases List.mem_append.1 hc with hc | hc
    · rcases List.mem_append.1 hc with hc | hc
      · have hc₁ := hsub₁.mem hc
        have hlt : c.start < b.start :=
          (Nat.le_add_right ..).trans_lt (hgl c hc b (List.mem_cons_self ..))
        exact hkeep c (by simp [hc₁]) (hl₁ c hc₁).ne hlt.ne
      · rcases List.mem_cons.1 hc with rfl | hc
        · exact ⟨hblen, hpos.trans_le (hle'.trans hle)⟩
        · have hc₂ := hsub₂.mem hc
          have hlt : b.start < c.start :=
            (Nat.le_add_right ..).trans_lt ((List.pairwise_cons.1 hgb).1 c hc)
          exact hkeep c (by simp [hc₂]) (hl₂ c hc₂).ne' hlt.ne'
    · have hcpos := (hk.header c (by simp [hc])).2
      have hcbp := ((List.pairwise_cons.1 hos).1 c hc).start_ne hpos hcpos
      refine hkeep c (by simp [hc]) hcbp.symm ?_
      rcases hstart with heq | ⟨d, hd, heq⟩
      · exact heq ▸ hcbp.symm
      · have := (hcross d (by simp [hd]) c (by simp [hc])).start_ne
          (hk.header d (by simp [hd])).2 hcpos
        exact heq ▸ this.symm
  · have h1 := hk.cover x
    have h2 := hcov x
    have h3 := hcov₂ x
    simp only [cover_append, cover_cons, cover_nil] at h1 h2 h3 ⊢
    omega
  · have h1 := hk.total
    simp only [total_append, total_cons] at h1 ⊢
    omega

end Heap.Ok

end Umalloc

end Xv6

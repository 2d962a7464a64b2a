/-
  Arbitrary files.

  The checks of `exec` on a program header do not ask for more than page 0,
  which is never mapped.  A file without a segment there
  loads into pages of the new page table only, whatever its headers say; with
  such a segment `loaduvm` looks up a page that is not mapped.  The other way to
  leave the tables is an argument longer than the address space.
-/
import Xv6.Exec.Correct

namespace Xv6

open Fallible

namespace Kmem

variable {B : Boot} {k₀ k k' : Kmem} {l₀ l : List UInt64} {r : UInt64} {z : Bool} {v w : ℕ}
  {f : Program} {st : Loaded} {F : UInt64 → Prop}

/-- Each page that the loop of `loaduvm` looks up is mapped, to one of the pages `F`. -/
def LoaduvmFinds (F : UInt64 → Prop) (pgdir addr : UInt64) (f : Program) (offset sz : UInt32) :
    ℕ → UInt32 → Kmem → Prop
  | 0, _, _ => True
  | m + 1, i, k =>
    (∃ p, userPage k pgdir ((addr + i.toUInt64).toNat / 4096) = some p ∧ F p) ∧
      ∀ res k', k.loadPage pgdir addr f offset sz i = .ok (res, k') → ¬ res < 0 →
        LoaduvmFinds F pgdir addr f offset sz m (i + 4096) k'

/-- The same for the call of `loaduvm` for a segment, if it is accepted. -/
def SegmentFinds (F : UInt64 → Prop) (B : Boot) (f : Program) (pgdir : UInt64) (ph : Proghdr)
    (sz : UInt64) (k : Kmem) : Prop :=
  ¬ ph.memsz < ph.filesz → ¬ ph.vaddr + ph.memsz < ph.vaddr → ph.vaddr % PGSIZE = 0 →
    ∀ sz' k', k.allocuvm B pgdir sz (ph.vaddr + ph.memsz) = .ok (sz', k') → sz' ≠ 0 →
      LoaduvmFinds F pgdir ph.vaddr f ph.off.toUInt32 ph.filesz.toUInt32
        ((ph.filesz.toUInt32.toNat + 4095) / 4096) 0 k'

/-- The same for the loop over the program headers. -/
def LoadFinds (F : UInt64 → Prop) (B : Boot) (f : Program) (pgdir : UInt64) :
    ℕ → UInt32 → UInt64 → Kmem → Prop
  | 0, _, _, _ => True
  | n + 1, off, sz, k => ∀ ph, f.proghdr off = some ph →
    if ph.type ≠ ELF_PROG_LOAD then LoadFinds F B f pgdir n (off + 56) sz k
    else SegmentFinds F B f pgdir ph sz k ∧
      ∀ sz' k', k.loadSegment B f pgdir ph sz = .ok (some sz', k') →
        LoadFinds F B f pgdir n (off + 56) sz' k'

end Kmem

/-! ## Segments at address 0 -/

namespace Program

variable {f : Program} {ph : Proghdr} {st : Loaded}

theorem zero_copy : (f.copy ph st).state.zero = true ↔
    st.zero = true ∨ ph.vaddr = 0 ∧ ph.filesz.toUInt32 ≠ 0 := by
  rw [copy]
  dsimp only
  split_ifs with halign hempty hcrash hlong
  · refine ⟨.inl, fun h => h.resolve_right fun h' => halign ?_⟩
    rw [h'.1]
    rfl
  · exact ⟨.inl, fun h => h.resolve_right fun h' => h'.2 hempty⟩
  all_goals simp [Layout.state, hempty]

/-- The segments that set `Loaded.zero`. -/
theorem zero_segment : (f.segment ph st).state.zero = true ↔ st.zero = true ∨
    ¬ (ph.memsz < ph.filesz ∨ ph.vaddr + ph.memsz < ph.vaddr ∨ KERNBASE ≤ ph.vaddr + ph.memsz) ∧
      ph.vaddr = 0 ∧ ph.filesz.toUInt32 ≠ 0 := by
  rw [segment]
  by_cases hbad : ph.memsz < ph.filesz ∨ ph.vaddr + ph.memsz < ph.vaddr ∨
      KERNBASE ≤ ph.vaddr + ph.memsz
  · rw [if_pos hbad]
    exact ⟨.inl, fun h => h.resolve_right fun h' => h'.1 hbad⟩
  · rw [if_neg hbad, zero_copy, and_iff_right hbad]

theorem zero_of_copy_crash {st' : Loaded} (h : f.copy ph st = .crash st') : st'.zero = true := by
  rw [copy] at h
  dsimp only at h
  split_ifs at h with halign hempty hcrash
  cases h
  simp [hcrash.1]

/-- The panic of `loaduvm` comes from such a segment. -/
theorem zero_of_segment_crash {st' : Loaded} (h : f.segment ph st = .crash st') :
    st'.zero = true := by
  rw [segment] at h
  by_cases hbad : ph.memsz < ph.filesz ∨ ph.vaddr + ph.memsz < ph.vaddr ∨
      KERNBASE ≤ ph.vaddr + ph.memsz
  · rw [if_pos hbad] at h
    cases h
  · rw [if_neg hbad] at h
    exact zero_of_copy_crash h

theorem zero_layout : ∀ (n : ℕ) (off : UInt32) {st : Loaded}, st.zero = true →
    (f.layout n off st).state.zero = true
  | 0, _, _, h => h
  | n + 1, off, st, h => by
    rw [layout]
    cases f.proghdr off with
    | none => exact h
    | some ph =>
      dsimp only
      by_cases htype : ph.type ≠ ELF_PROG_LOAD
      · rw [if_pos htype]
        exact zero_layout n _ h
      rw [if_neg htype]
      have hseg : (f.segment ph st).state.zero = true := zero_segment.2 (.inl h)
      cases hs : f.segment ph st with
      | bad st' | crash st' =>
        rw [hs] at hseg
        exact hseg
      | done st' =>
        rw [hs] at hseg
        exact zero_layout n _ hseg

/-- One header of a layout. -/
theorem zero_layout_succ {n : ℕ} {off : UInt32} (hph : f.proghdr off = some ph)
    (htype : ¬ ph.type ≠ ELF_PROG_LOAD) : (f.layout (n + 1) off st).state.zero = true ↔
      (f.segment ph st).state.zero = true ∨ ∃ st', f.segment ph st = .done st' ∧
        (f.layout n (off + 56) st').state.zero = true := by
  rw [layout, hph]
  dsimp only
  rw [if_neg htype]
  cases hs : f.segment ph st with
  | bad st' | crash st' => simp [Layout.state]
  | done st' =>
    refine ⟨fun h => .inr ⟨st', rfl, h⟩, ?_⟩
    rintro (h | ⟨_, ⟨⟩, h⟩)
    · exact zero_layout n _ h
    · exact h

theorem zero_of_layout_crash : ∀ (n : ℕ) (off : UInt32) {st st' : Loaded},
    f.layout n off st = .crash st' → st'.zero = true
  | 0, _, _, _, h => by cases h
  | n + 1, off, st, st', h => by
    rw [layout] at h
    cases hph : f.proghdr off with
    | none =>
      rw [hph] at h
      cases h
    | some ph =>
      rw [hph] at h
      dsimp only at h
      by_cases htype : ph.type ≠ ELF_PROG_LOAD
      · rw [if_pos htype] at h
        exact zero_of_layout_crash n _ h
      rw [if_neg htype] at h
      cases hs : f.segment ph st with
      | bad st₁ =>
        rw [hs] at h
        cases h
      | crash st₁ =>
        rw [hs] at h
        cases h
        exact zero_of_segment_crash hs
      | done st₁ =>
        rw [hs] at h
        exact zero_of_layout_crash n _ h

end Program

namespace Kmem

variable {B : Boot} {k₀ k k' : Kmem} {l₀ l : List UInt64} {r : UInt64} {z : Bool} {v w : ℕ}
  {f : Program} {st : Loaded} {F : UInt64 → Prop}

/-! ## Files without such a segment -/

theorem Building.loaduvmFinds (f : Program) {addr : UInt64} (offset sz : UInt32)
    (hv : addr.toNat = 4096 * v) (hpos : 1 ≤ v) : ∀ (m j : ℕ) {i : UInt32} {z : Bool} {k : Kmem},
    Building B k₀ l₀ r z k l → m = (sz.toNat + 4095) / 4096 - j →
    (0 < m → i.toNat = 4096 * j) →
    (∀ w, v + j ≤ w → w < v + j + m → w < 2 ^ 35 ∧ (userPage k r w).isSome) →
    LoaduvmFinds (· ∈ l₀) r addr f offset sz m i k
  | 0, _, _, _, _, _, _, _, _ => trivial
  | m + 1, j, i, z, k, h, hm, hi, hpages => by
    have hi := hi (Nat.succ_pos m)
    have hsz := sz.toNat_lt
    obtain ⟨hlow, hmap⟩ := hpages (v + j) le_rfl (by omega)
    have ha : (addr + i.toUInt64).toNat = 4096 * (v + j) := by
      rw [UInt64.toNat_add, UInt32.toNat_toUInt64]
      omega
    obtain ⟨t, ht⟩ := table_of_mapped hmap
    obtain ⟨res₁, k₁, hok, hb, -, hpte, -⟩ := h.loadPage f offset sz ha hlow (.inl hmap)
      (by rw [ht]; rfl) rfl
    refine ⟨?_, fun res k' hok' _ => ?_⟩
    · obtain ⟨p, hp⟩ := Option.isSome_iff_exists.1 hmap
      rw [ha, Nat.mul_div_cancel_left _ (by decide)]
      exact ⟨p, hp, h.space.mem hp⟩
    · rw [hok] at hok'
      cases hok'
      refine Building.loaduvmFinds f offset sz hv hpos m (j + 1) hb (by omega) (fun hm' => ?_)
        fun w h1 h2 => ?_
      · rw [UInt32.toNat_add, hi, show (4096 : UInt32).toNat = 4096 from rfl]
        omega
      · rw [userPage_congr (hpte w)]
        exact hpages w (by omega) (by omega)

theorem Loading.segmentFinds (h : Loading B k₀ l₀ r st k l) (f : Program) {ph : Proghdr}
    (hz : ph.vaddr = 0 → ph.filesz.toUInt32 = 0) :
    SegmentFinds (· ∈ l₀) B f r ph st.sz k := by
  intro hle hover halign sz' k' hok hne
  by_cases hhigh : KERNBASE ≤ ph.vaddr + ph.memsz
  · rw [Kmem.allocuvm, if_pos hhigh] at hok
    cases hok
    exact absurd rfl hne
  have halloc := h.allocuvm (UInt64.not_le.1 hhigh)
  rw [hok] at halloc
  obtain ⟨-, -, l', -, -, hL⟩ := halloc
  by_cases hempty : ph.filesz.toUInt32 = 0
  · rw [hempty]
    trivial
  have hne0 : ph.vaddr.toNat ≠ 0 := fun h0 => hempty (hz (UInt64.toNat_inj.1 h0))
  have hmod : ph.vaddr.toNat % 4096 = 0 := by
    have := congrArg UInt64.toNat halign
    rwa [UInt64.toNat_mod] at this
  have hend := segment_le hle hover st.sz
  have hnp := hL.spans.npages_le hL.space
  dsimp only at hnp
  refine hL.loaduvmFinds f ph.off.toUInt32 ph.filesz.toUInt32 (v := ph.vaddr.toNat / 4096)
    (by omega) (by omega) _ 0 rfl (fun _ => rfl) fun w h1 h2 => ?_
  have hw : w < npages (if ph.vaddr + ph.memsz < st.sz then st.sz else ph.vaddr + ph.memsz) := by
    rw [npages]
    omega
  exact ⟨by omega, (hL.spans w).2 ⟨by omega, hw⟩⟩

/-- **Every page is found.** -/
theorem Loading.loadFinds (f : Program) : ∀ (n : ℕ) (off : UInt32) {st : Loaded} {k : Kmem}
    {l : List UInt64}, Loading B k₀ l₀ r st k l → (f.layout n off st).state.zero = false →
    LoadFinds (· ∈ l₀) B f r n off st.sz k
  | 0, _, _, _, _, _, _ => trivial
  | n + 1, off, st, k, l, h, hz => by
    intro ph hph
    by_cases htype : ph.type ≠ ELF_PROG_LOAD
    · rw [Program.layout, hph] at hz
      dsimp only at hz
      rw [if_pos htype] at hz ⊢
      exact Loading.loadFinds f n _ h hz
    rw [if_neg htype]
    rw [Bool.eq_false_iff, ne_eq, Program.zero_layout_succ hph htype, Program.zero_segment] at hz
    refine ⟨?_, fun sz' k' hok => ?_⟩
    · intro hle hover halign sz' k' hok hne
      refine h.segmentFinds f (fun h0 => by_contra fun hfile => ?_) hle hover halign sz' k' hok hne
      refine hz (.inl (.inr ⟨?_, h0, hfile⟩))
      rintro (h1 | h1 | h1)
      · exact hle h1
      · exact hover h1
      · rw [Kmem.allocuvm, if_pos h1] at hok
        cases hok
        exact hne rfl
    · have hseg := h.loadSegment f ph
      rw [hok] at hseg
      obtain ⟨-, -, l', -, hf⟩ := hseg
      cases hs : f.segment ph st with
      | bad st' | crash st' =>
        rw [hs] at hf
        exact hf.elim
      | done st' =>
        rw [hs] at hf
        obtain ⟨rfl, hL⟩ := hf
        exact Loading.loadFinds f n _ hL
          (Bool.eq_false_iff.2 fun hzero => hz (.inr ⟨st', hs, hzero⟩))

/-! ## Files with such a segment -/

/-- The lookup of page 0 fails. -/
theorem Loading.zero_of_segmentFinds (h : Loading B k₀ l₀ r st k l) {ph : Proghdr}
    (hfind : SegmentFinds F B f r ph st.sz k) {res : Option UInt64} {k' : Kmem}
    (hok : k.loadSegment B f r ph st.sz = .ok (res, k'))
    (hz : (f.segment ph st).state.zero = true) : st.zero = true := by
  refine (Program.zero_segment.1 hz).resolve_right ?_
  rintro ⟨hgood, h0, hfile⟩
  have hle : ¬ ph.memsz < ph.filesz := fun h1 => hgood (.inl h1)
  have hover : ¬ ph.vaddr + ph.memsz < ph.vaddr := fun h1 => hgood (.inr (.inl h1))
  rw [Kmem.loadSegment, if_neg hle, if_neg hover] at hok
  obtain ⟨⟨sz', k₁⟩, halloc, -⟩ := bind_ok hok
  have hspec := h.allocuvm (UInt64.not_le.1 fun h1 => hgood (.inr (.inr h1)))
  rw [halloc] at hspec
  obtain ⟨-, -, l', -, rfl, hL⟩ := hspec
  have hne : (if ph.vaddr + ph.memsz < st.sz then st.sz else ph.vaddr + ph.memsz) ≠ 0 := by
    intro hsz
    have := UInt64.le_iff_toNat_le.1 hL.page
    dsimp only at this
    rw [hsz] at this
    exact absurd this (by decide)
  have hfinds := hfind hle hover (by rw [h0]; rfl) _ _ halloc hne
  have hpos : 0 < ph.filesz.toUInt32.toNat := Nat.pos_of_ne_zero fun h1 =>
    hfile (UInt32.toNat_inj.1 h1)
  obtain ⟨m, hm⟩ : ∃ m, (ph.filesz.toUInt32.toNat + 4095) / 4096 = m + 1 :=
    Nat.exists_eq_succ_of_ne_zero (by omega)
  rw [hm, h0] at hfinds
  obtain ⟨⟨p, hp, -⟩, -⟩ := hfinds
  rw [show ((0 : UInt64) + (0 : UInt32).toUInt64).toNat / 4096 = 0 from rfl, userPage, hL.low] at hp
  cases hp

/-- **If every page is found, no segment starts at address 0.** -/
theorem Loading.zero_of_loadFinds : ∀ (n : ℕ) (off : UInt32) {st : Loaded} {k k' : Kmem}
    {l : List UInt64} {res : Option UInt64}, Loading B k₀ l₀ r st k l →
    LoadFinds F B f r n off st.sz k → k.loadLoop B f r n off st.sz = .ok (res, k') →
    (f.layout n off st).state.zero = true → st.zero = true
  | 0, _, _, _, _, _, _, _, _, _, hz => hz
  | n + 1, off, st, k, k', l, res, h, hfind, hok, hz => by
    rw [Kmem.loadLoop] at hok
    cases hph : f.proghdr off with
    | none =>
      rw [Program.layout, hph] at hz
      exact hz
    | some ph =>
      rw [hph] at hok
      dsimp only at hok
      have hfind := hfind ph hph
      by_cases htype : ph.type ≠ ELF_PROG_LOAD
      · rw [Program.layout, hph] at hz
        dsimp only at hz
        rw [if_pos htype] at hz hfind hok
        exact Loading.zero_of_loadFinds n _ h hfind hok hz
      rw [if_neg htype] at hfind hok
      obtain ⟨⟨res₁, k₁⟩, hseg, hok⟩ := bind_ok hok
      rcases (Program.zero_layout_succ hph htype).1 hz with hz | ⟨st', hs, hz⟩
      · exact h.zero_of_segmentFinds hfind.1 hseg hz
      · have hspec := h.loadSegment f ph
        rw [hseg, hs] at hspec
        obtain ⟨-, -, l', -, hf⟩ := hspec
        cases res₁ with
        | none => exact hf.elim
        | some sz' =>
          obtain ⟨rfl, hL⟩ := hf
          have hz' := Loading.zero_of_loadFinds n _ hL (hfind.2 _ _ hseg) hok hz
          refine h.zero_of_segmentFinds hfind.1 hseg ?_
          rw [hs]
          exact hz'

end Kmem

open Kmem

/-! ## The whole call -/

variable {B : Boot} {l : List UInt64} {argv : List CString} {s : ExecState} {T : UInt64 → Prop}
  {file : Option Program} {path : List UInt8}

/-- `exec` returns, and loads into pages that were free and that the new page table maps. -/
structure Robust (B : Boot) (l : List UInt64) (file : Option Program) (path : List UInt8)
    (argv : List CString) (s : ExecState) : Prop where
  returns : ∃ res s', s.exec B file path argv = .ok (res, s') ∧ (res = 0 ∨ res = -1)
  finds : ∀ f elf r k, file = some f → f.elfhdr = some elf → elf.magic = ELF_MAGIC →
    s.kmem.setupkvm B = .ok (r, k) →
    LoadFinds (· ∈ l) B f r elf.phnum.toNat elf.phoff.toUInt32 PGSIZE k

/-- Up to the end of the headers or the first one that is refused, no segment has bytes at address 0;
and no argument is longer than the address space. -/
def Tame (file : Option Program) (argv : List CString) : Prop :=
  ∀ f elf, file = some f → f.elfhdr = some elf → elf.magic = ELF_MAGIC →
    (f.load elf).state.zero = false ∧
    ∀ st, f.load elf = .done st → place (4096 * (npages st.sz + 2)) argv [] ≠ .crash

theorem stackPlan_crash {entry : UInt64} {st : Loaded} {e : Crash} :
    stackPlan entry st argv = .crash e ↔
      e = .nullPte ∧ place (4096 * (npages st.sz + 2)) argv [] = .crash := by
  rw [stackPlan]
  cases place (4096 * (npages st.sz + 2)) argv [] with
  | bad => simp
  | crash => simp [eq_comm]
  | fits =>
    dsimp only
    split_ifs <;> simp

theorem Tame.not_crash (h : Tame file argv) (e : Crash) : execPlan file argv ≠ .crash e := by
  intro hplan
  cases file with
  | none => cases hplan
  | some f =>
    rw [execPlan, filePlan] at hplan
    cases helf : f.elfhdr with
    | none =>
      rw [helf] at hplan
      cases hplan
    | some elf =>
      rw [helf] at hplan
      dsimp only at hplan
      by_cases hmagic : elf.magic ≠ ELF_MAGIC
      · rw [if_pos hmagic] at hplan
        cases hplan
      rw [if_neg hmagic] at hplan
      obtain ⟨hzero, hplace⟩ := h f elf rfl helf (not_not.1 hmagic)
      cases hload : f.load elf with
      | bad st =>
        rw [hload] at hplan
        cases hplan
      | crash st =>
        rw [hload, Layout.state, Program.zero_of_layout_crash _ _ hload] at hzero
        cases hzero
      | done st =>
        rw [hload] at hplan
        exact hplace st hload (stackPlan_crash.1 hplan).2

/-- **`exec` is robust against exactly the files and arguments that are tame.** -/
theorem ExecState.exec_robust_iff (hold : Space B s.kmem l s.proc.pgdir T)
    (hmem : s.exec B file path argv ≠ .error .outOfMemory) :
    Robust B l file path argv s ↔ Tame file argv := by
  have hspec := exec_spec hold file path argv
  constructor
  · rintro ⟨⟨res, s', hok, -⟩, hfinds⟩ f elf rfl helf hmagic
    rw [hok] at hspec
    obtain ⟨-, -, hout⟩ := hspec
    change Outcome _ _ _ _ _ _ _ (filePlan f argv) _ _ at hout
    rw [filePlan, helf] at hout
    dsimp only at hout
    rw [if_neg (not_not.2 hmagic)] at hout
    refine ⟨Bool.eq_false_iff.2 fun hzero => ?_, fun st hload hplace => ?_⟩
    · change ExecState.execFile B f path argv s.beginOp.namei.ilock = _ at hok
      rw [execFile, helf] at hok
      dsimp only at hok
      rw [if_neg (not_not.2 hmagic)] at hok
      obtain ⟨⟨r, k⟩, hset, hok⟩ := bind_ok hok
      have hset : s.kmem.setupkvm B = .ok (r, k) := hset
      have hL := hold.tree.pool.loading
      rw [hset] at hL
      obtain ⟨-, -, l', -, hr, hL⟩ := hL
      dsimp only at hok
      rw [if_neg (hold.tree.pool.valid r hr).ne_zero] at hok
      obtain ⟨⟨res₁, k₁⟩, hload, -⟩ := bind_ok hok
      have hstart := hL.zero_of_loadFinds _ _ (hfinds f elf r k rfl helf hmagic hset) hload hzero
      cases hstart
    · rw [hload] at hout
      change Outcome _ _ _ _ _ _ _ (stackPlan _ st argv) _ _ at hout
      rw [stackPlan_crash.2 ⟨rfl, hplace⟩] at hout
      exact hout
  · intro htame
    constructor
    · cases hexec : s.exec B file path argv with
      | error e =>
        rw [hexec] at hspec
        rcases hspec with ⟨rfl, -⟩ | hcrash
        · exact absurd hexec hmem
        · exact absurd hcrash (htame.not_crash e)
      | ok out =>
        rw [hexec] at hspec
        obtain ⟨-, -, hout⟩ := hspec
        refine ⟨out.1, out.2, rfl, ?_⟩
        cases hplan : execPlan file argv with
        | fail | late st =>
          rw [hplan] at hout
          exact .inr hout.1
        | crash e => exact absurd hplan (htame.not_crash e)
        | run entry st =>
          rw [hplan] at hout
          exact .inl hout.1
    · intro f elf r k hfile helf hmagic hset
      have hL := hold.tree.pool.loading
      rw [hset] at hL
      obtain ⟨-, -, l', -, -, hL⟩ := hL
      exact hL.loadFinds f _ _ (htame f elf hfile helf hmagic).1

theorem ExecState.exec_robust_sample : ∃ k l r T, Space smallBoot k l r T ∧
    ∀ name tf, Robust smallBoot l (some sampleElf) [47, 97] []
      ⟨k, ⟨r, 0x3000, name, tf⟩, 0, false, 0⟩ := by
  obtain ⟨k, l, r, T, hs, -, hlen⟩ := smallBoot_space
  refine ⟨k, l, r, T, hs, fun name tf => ?_⟩
  obtain ⟨s', hok⟩ := sampleElf_runs (s := ⟨k, ⟨r, 0x3000, name, tf⟩, 0, false, 0⟩) hs hlen [47, 97]
  refine (exec_robust_iff (s := ⟨k, ⟨r, 0x3000, name, tf⟩, 0, false, 0⟩) hs fun he => ?_).2 ?_
  · rw [hok] at he
    cases he
  · rintro f elf ⟨⟩ helf -
    rw [sampleElf_elfhdr] at helf
    cases helf
    rw [sampleElf_load]
    exact ⟨rfl, fun st _ => (by rintro ⟨⟩)⟩

theorem ExecState.exec_crash (hold : Space B s.kmem l s.proc.pgdir T)
    (hneed : execNeed file ≤ l.length) {e : Crash} (hplan : execPlan file argv = .crash e)
    (path : List UInt8) : s.exec B file path argv = .error e := by
  have hspec := exec_spec hold file path argv
  rw [hplan] at hspec
  cases hexec : s.exec B file path argv with
  | ok out =>
    rw [hexec] at hspec
    obtain ⟨-, -, hout⟩ := hspec
    exact hout.elim
  | error e' =>
    rw [hexec] at hspec
    rcases hspec with ⟨-, hlt⟩ | he
    · omega
    · cases he
      rfl

/-- The sample program with its segment at address 0. -/
def zeroElf : Program where
  bytes := sampleElf.bytes.set 81 0
  size_lt := by decide +kernel

theorem zeroElf_elfhdr : zeroElf.elfhdr = some sampleElfhdr := by decide +kernel

theorem zeroElf_load : zeroElf.load sampleElfhdr = .crash ⟨PGSIZE, fun _ => 0, true⟩ := by
  have hph : zeroElf.proghdr 64 = some { sampleSegment with vaddr := 0 } := by decide +kernel
  change zeroElf.layout 1 64 .start = _
  rw [Program.layout, hph]
  rfl

theorem zeroElf_plan (argv : List CString) :
    execPlan (some zeroElf) argv = .crash .loaduvmExist := by
  rw [execPlan, filePlan, zeroElf_elfhdr]
  dsimp only
  rw [if_neg (by decide), zeroElf_load]

theorem zeroElf_need : execNeed (some zeroElf) = 9 := by
  rw [execNeed, zeroElf_elfhdr]
  dsimp only
  rw [zeroElf_load]
  rfl

/-- A segment at address 0: `loaduvm` panics. -/
theorem ExecState.exec_zero_panics : ∃ k l r T, Space smallBoot k l r T ∧ 50000 ≤ l.length ∧
    ∀ name tf, (⟨k, ⟨r, 0x3000, name, tf⟩, 0, false, 0⟩ : ExecState).exec smallBoot
        (some zeroElf) [47, 97] [] = .error .loaduvmExist ∧
      ¬ Robust smallBoot l (some zeroElf) [47, 97] [] ⟨k, ⟨r, 0x3000, name, tf⟩, 0, false, 0⟩ := by
  obtain ⟨k, l, r, T, hs, -, hlen⟩ := smallBoot_space
  refine ⟨k, l, r, T, hs, hlen, fun name tf => ?_⟩
  have hok := exec_crash (s := ⟨k, ⟨r, 0x3000, name, tf⟩, 0, false, 0⟩) hs
    (zeroElf_need.trans_le (by omega)) (zeroElf_plan []) [47, 97]
  refine ⟨hok, fun h => ?_⟩
  obtain ⟨res, s', hret, -⟩ := h.returns
  rw [hok] at hret
  cases hret

end Xv6

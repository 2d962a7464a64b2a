/-
  The argument stack: the second loop of `exec`.

  The stack is the last page of the image, and the page below it has no user
  flag.  The strings are pushed one after another, each at a multiple of
  8, and `copyout` fails as soon as one of them reaches into that page.  It is
  only for a string longer than the whole address space that it gets further:
  then the stack pointer wraps around, and the kernel reads an entry that does
  not exist.
-/
import Xv6.Exec.Load

namespace Xv6

open Fallible

/-- Most arguments of a program. -/
abbrev MAXARG : ℕ := 32

/-- A C string, without the terminating zero.  Its length plus one is an `int`. -/
structure CString where
  bytes : List UInt8
  noZero : 0 ∉ bytes
  short : bytes.length + 1 < 2 ^ 31

/-- The string with its terminator. -/
def CString.stored (s : CString) : List UInt8 := s.bytes ++ [0]

namespace Kmem

/-- The loop over `argv`; `us` are the entries of `ustack` from index 1 on. -/
def pushArgs (pgdir : UInt64) : List CString → UInt64 → List UInt64 → Kmem →
    Except Crash (Option (UInt64 × List UInt64) × Kmem)
  | [], sp, us, k => .ok (some (sp, us), k)
  | s :: argv, sp, us, k =>
    if MAXARG ≤ us.length then .ok (none, k)
    else do
      let sp := (sp - UInt64.ofNat (s.bytes.length + 1)) &&& ~~~ 7
      let (res, k) ← k.copyout pgdir sp s.stored
      if res < 0 then .ok (none, k) else pushArgs pgdir argv sp (us ++ [sp]) k

end Kmem

/-! ## Where the strings go -/

/-- The bytes of the stack that strings take. -/
def used (argv : List CString) : ℕ := (argv.map fun s => (s.bytes.length + 8) / 8 * 8).sum

theorem used_append (argv argv' : List CString) : used (argv ++ argv') = used argv + used argv' := by
  simp [used]

theorem used_singleton (s : CString) : used [s] = (s.bytes.length + 8) / 8 * 8 := by simp [used]

theorem used_mod : ∀ argv : List CString, used argv % 8 = 0
  | [] => rfl
  | s :: argv => by
    have h1 := used_mod argv
    have h2 := used_singleton s
    rw [← List.singleton_append, used_append]
    omega

theorem used_take_le (argv : List CString) (j : ℕ) : used (argv.take j) ≤ used argv := by
  conv_rhs => rw [← List.take_append_drop j argv, used_append]
  exact Nat.le_add_right _ _

/-- The addresses of strings on the stack of an image of `m` pages. -/
def addrs (m : ℕ) (argv : List CString) : List UInt64 :=
  (List.range argv.length).map fun j => .ofNat (4096 * m - used (argv.take (j + 1)))

theorem addrs_append (m : ℕ) (argv : List CString) (s : CString) :
    addrs m (argv ++ [s]) = addrs m argv ++ [.ofNat (4096 * m - used (argv ++ [s]))] := by
  rw [addrs, List.length_append, List.length_singleton, List.range_succ, List.map_append]
  congr 1
  · refine List.map_congr_left fun j hj => ?_
    rw [List.take_append_of_le_length (List.mem_range.1 hj)]
  · rw [List.map_singleton, List.take_of_length_le (by simp)]

theorem length_addrs (m : ℕ) (argv : List CString) : (addrs m argv).length = argv.length := by
  simp [addrs]

/-- How pushing ends: with a jump to `bad`, with the null entry, or well. -/
inductive Place
  | bad
  | crash
  | fits

/-- What comes of pushing `argv` after `done`, with `top` the size of the address space. -/
def place (top : ℕ) : List CString → List CString → Place
  | [], _ => .fits
  | s :: argv, done =>
    if MAXARG ≤ done.length then .bad
    else if used (done ++ [s]) ≤ 4096 then place top argv (done ++ [s])
    else if used (done ++ [s]) ≤ top then .bad
    else .crash

namespace Kmem

variable {B : Boot} {k₀ k k' : Kmem} {l₀ l : List UInt64} {r va : UInt64} {z : Bool} {m t v : ℕ}
  {data : ℕ → UInt8} {done : List CString} {buf : List UInt8}

/-- An image of `m` pages, with `data` up to the guard page, and a stack on which the strings `done`
have been pushed. -/
structure Stack (k : Kmem) (r : UInt64) (m : ℕ) (data : ℕ → UInt8) (done : List CString) : Prop where
  three : 3 ≤ m
  spans : ∀ v, (userPage k r v).isSome ↔ 1 ≤ v ∧ v < m
  flags : ∀ v, 1 ≤ v → v < m → pteFlags (pte k r v) = if v + 2 = m then 3 else 7
  data : ∀ a, 4096 ≤ a → a < 4096 * (m - 2) → ubyte k r a = some (data a)
  fits : used done ≤ 4096
  args : ∀ j s, done[j]? = some s → ∀ i < s.stored.length,
    ubyte k r (4096 * m - used (done.take (j + 1)) + i) = s.stored[i]?

/-- The same under construction. -/
structure Stacked (B : Boot) (k₀ : Kmem) (l₀ : List UInt64) (r : UInt64) (z : Bool) (m : ℕ)
    (data : ℕ → UInt8) (done : List CString) (k : Kmem) (l : List UInt64) : Prop
    extends Building B k₀ l₀ r z k l, Stack k r m data done

theorem flags_and (e : UInt64) {f : UInt64} (hf : 0xFFF &&& f = f) : e &&& f = pteFlags e &&& f := by
  rw [pteFlags, UInt64.and_assoc, hf]

theorem Stacked.few (h : Stacked B k₀ l₀ r z m data done k l) : m ≤ 57345 := by
  have := h.space.run_le (a := 1) (b := m) fun w h1 h2 => (h.spans w).2 ⟨h1, h2⟩
  omega

/-- The accessible pages. -/
theorem Stacked.accessible (h : Stacked B k₀ l₀ r z m data done k l) {a : UInt64} :
    Accessible k r a ↔ 1 ≤ a.toNat / 4096 ∧ a.toNat / 4096 < m ∧ a.toNat / 4096 + 2 ≠ m := by
  have hfew := h.few
  rw [Accessible, flags_and _ (f := PTE_U) (by decide)]
  constructor
  · rintro ⟨hlow, hp, hu⟩
    have hmap : (userPage k r (a.toNat / 4096)).isSome := by
      rw [userPage, child_eq hp]
      rfl
    obtain ⟨h1, h2⟩ := (h.spans _).1 hmap
    refine ⟨h1, h2, fun hg => hu ?_⟩
    rw [h.flags _ h1 h2, if_pos hg]
    rfl
  · rintro ⟨h1, h2, hg⟩
    refine ⟨by omega, fun hp => ?_, ?_⟩
    · have hmap := (h.spans _).2 ⟨h1, h2⟩
      rw [userPage_eq_none.2 hp] at hmap
      cases hmap
    · rw [h.flags _ h1 h2, if_neg hg]
      decide

/-- Every page below the top has an entry, page 0 too. -/
theorem Stacked.hasPte (h : Stacked B k₀ l₀ r z m data done k l) {a : UInt64}
    (ha : a.toNat < 4096 * m) : HasPte k r a := by
  have hfew := h.few
  have hthree := h.three
  refine ⟨by omega, ?_⟩
  have hmap : (userPage k r (max 1 (a.toNat / 4096))).isSome := (h.spans _).2 (by omega)
  obtain ⟨t, ht⟩ := table_of_mapped hmap
  rw [show a.toNat / 4096 / 512 = max 1 (a.toNat / 4096) / 512 by omega, ht]
  rfl

theorem toNat_pageAt {j : ℕ} (h : va.toNat / 4096 * 4096 + 4096 * j < 2 ^ 64) :
    (pageAt va j).toNat = va.toNat / 4096 * 4096 + 4096 * j := by
  rw [pageAt, UInt64.toNat_add, UInt64.toNat_mul, UInt64.toNat_ofNat', toNat_pgrounddown,
    show PGSIZE.toNat = 4096 from rfl]
  omega

/-- **A copy below the strings** that stays in the stack page. -/
theorem Stacked.copyout (h : Stacked B k₀ l₀ r z m data done k l) (hva : va.toNat + t = 4096 * m)
    (ht : t ≤ 4096) (hlen : buf.length + used done ≤ t) (hb : buf ≠ []) :
    ∃ k', k.copyout r va buf = .ok (0, k') ∧ Stacked B k₀ l₀ r z m data done k' l ∧
      ∀ a, ubyte k' r a = if va.toNat ≤ a ∧ a < va.toNat + buf.length then buf[a - va.toNat]?
        else ubyte k r a := by
  have hfew := h.few
  have hthree := h.three
  have hpos : 0 < buf.length := List.length_pos_iff.2 hb
  have hall : ∀ j < touched va buf.length, Accessible k r (pageAt va j) := by
    intro j hj
    rw [touched, if_neg (by omega)] at hj
    rw [h.accessible, toNat_pageAt (by omega)]
    omega
  obtain ⟨k', hok, -, hs, hk, hpte, -, -, hbytes⟩ := h.space.copyoutLoop_zero _ va le_rfl hall
  refine ⟨k', hok, ⟨h.toBuilding.keeps hs hk, hthree, fun v => ?_, fun v h1 h2 => ?_,
    fun a h1 h2 => ?_, h.fits, fun j s hj i hi => ?_⟩, hbytes⟩
  · rw [userPage_congr (hpte v)]
    exact h.spans v
  · rw [hpte]
    exact h.flags v h1 h2
  · rw [hbytes, if_neg (by omega)]
    exact h.data a h1 h2
  · have hle := used_take_le done (j + 1)
    rw [hbytes, if_neg (by omega)]
    exact h.args j s hj i hi

/-- **A copy that reaches into the guard page.** -/
theorem Stacked.copyout_fail (h : Stacked B k₀ l₀ r z m data done k l)
    (hva : va.toNat + t = 4096 * m) (ht : 4096 < t) (hlen : t < buf.length + used done + 8)
    (hb : buf ≠ []) :
    ∃ k', k.copyout r va buf = .ok (-1, k') ∧ Building B k₀ l₀ r z k' l := by
  have hfew := h.few
  have hthree := h.three
  have hfits := h.fits
  have hpos : 0 < buf.length := List.length_pos_iff.2 hb
  -- the first page that is not accessible: page 0, or the guard page
  obtain ⟨j, hj, hlast, hbefore, hno⟩ : ∃ j < touched va buf.length,
      va.toNat / 4096 + j + 2 ≤ m ∧ (∀ i < j, Accessible k r (pageAt va i)) ∧
      ¬ Accessible k r (pageAt va j) := by
    rw [touched, if_neg (by omega)]
    by_cases h0 : va.toNat / 4096 = 0
    · refine ⟨0, by omega, by omega, fun i hi => by omega, ?_⟩
      rw [h.accessible, toNat_pageAt (by omega)]
      omega
    · refine ⟨m - 2 - va.toNat / 4096, by omega, by omega, fun i hi => ?_, ?_⟩
      · rw [h.accessible, toNat_pageAt (by omega)]
        omega
      · rw [h.accessible, toNat_pageAt (by omega)]
        omega
  obtain ⟨k', hok, -, hs, hk⟩ := (h.space.copyoutLoop_stop j _ va le_rfl hj hbefore hno).1
    (h.hasPte (by rw [toNat_pageAt (by omega)]; omega))
  exact ⟨k', hok, h.toBuilding.keeps hs hk⟩

/-- **Above the user half** there are no entries in the last slot of the root. -/
theorem Building.copyout_high (h : Building B k₀ l₀ r z k l) (hva : 2 ^ 64 - 2 ^ 32 ≤ va.toNat)
    (hb : buf ≠ []) : k.copyout r va buf = .error .nullPte := by
  have hlt := va.toNat_lt
  have hd := toNat_pgrounddown va
  have hpmx : (pmx (pgrounddown va)).toNat = 511 := by
    rw [toNat_pmx]
    omega
  have hwalk : k.walkpgdir r (pgrounddown va) false = .ok (none, k) := by
    rw [walkpgdir, descend_find, hpmx, h.root 511 (by decide) (by decide), if_neg (by decide),
      child_eq_none (by decide)]
    rfl
  obtain ⟨n, hn⟩ : ∃ n, buf.length = n + 1 :=
    ⟨_, (Nat.succ_pred_eq_of_pos (List.length_pos_iff.2 hb)).symm⟩
  rw [Kmem.copyout, hn, copyoutLoop, if_neg hb]
  change (k.uva2ka r (pgrounddown va) >>= _) = _
  rw [uva2ka, hwalk]
  rfl

/-- The stack pointer after a string. -/
theorem toNat_push {sp : UInt64} {u n : ℕ} (hsp : sp.toNat + u = 4096 * m) (hu : u % 8 = 0)
    (hn : n + 1 < 2 ^ 31) (hm : m ≤ 57345) :
    if u + (n + 8) / 8 * 8 ≤ 4096 * m then
      ((sp - UInt64.ofNat (n + 1)) &&& ~~~ 7).toNat + (u + (n + 8) / 8 * 8) = 4096 * m
    else 2 ^ 64 - 2 ^ 32 ≤ ((sp - UInt64.ofNat (n + 1)) &&& ~~~ 7).toNat := by
  have hsub : (sp - UInt64.ofNat (n + 1)).toNat = (2 ^ 64 - (n + 1) + sp.toNat) % 2 ^ 64 := by
    rw [UInt64.toNat_sub, UInt64.toNat_ofNat', Nat.mod_eq_of_lt (show n + 1 < 2 ^ 64 by omega)]
  have hmask := toNat_and_mask (sp - UInt64.ofNat (n + 1)) (m := ~~~ 7) (s := 3) (by decide)
    (by decide)
  rw [hmask, hsub]
  split_ifs with hle <;> omega

theorem stored_ne_nil (s : CString) : s.stored ≠ [] := by simp [CString.stored]

theorem length_stored (s : CString) : s.stored.length = s.bytes.length + 1 := by
  simp [CString.stored]

/-- **A string is pushed.** -/
theorem Stacked.push (h : Stacked B k₀ l₀ r z m data done k l) {s : CString}
    (hva : va.toNat + used (done ++ [s]) = 4096 * m) (hfit : used (done ++ [s]) ≤ 4096) :
    ∃ k', k.copyout r va s.stored = .ok (0, k') ∧
      Stacked B k₀ l₀ r z m data (done ++ [s]) k' l := by
  have hlen := length_stored s
  have happ := used_append done [s]
  have hone := used_singleton s
  obtain ⟨k', hok, hs, hbytes⟩ := h.copyout hva hfit (by omega) (stored_ne_nil s)
  refine ⟨k', hok, { hs with fits := hfit, args := fun j s' hj i hi => ?_ }⟩
  rcases Nat.lt_or_ge j done.length with hlt | hge
  · rw [List.getElem?_append_left hlt] at hj
    rw [List.take_append_of_le_length hlt]
    exact hs.args j s' hj i hi
  · rw [List.getElem?_append_right hge, List.getElem?_singleton] at hj
    split_ifs at hj with hj0
    cases hj
    rw [List.take_of_length_le (by simp; omega), hbytes, show 4096 * m - used (done ++ [s]) =
      va.toNat by omega, if_pos (by omega), Nat.add_sub_cancel_left]

/-- **The loop over `argv`** does what `place` says. -/
theorem Stacked.pushArgs : ∀ (argv : List CString) {done : List CString} {k : Kmem} {sp : UInt64},
    Stacked B k₀ l₀ r z m data done k l → sp.toNat + used done = 4096 * m →
    match place (4096 * m) argv done with
    | .fits => ∃ k' sp', k.pushArgs r argv sp (addrs m done) =
        .ok (some (sp', addrs m (done ++ argv)), k') ∧
        sp'.toNat + used (done ++ argv) = 4096 * m ∧
        Stacked B k₀ l₀ r z m data (done ++ argv) k' l
    | .bad => ∃ k', k.pushArgs r argv sp (addrs m done) = .ok (none, k') ∧
        Building B k₀ l₀ r z k' l
    | .crash => k.pushArgs r argv sp (addrs m done) = .error .nullPte
  | [], done, k, sp, h, hsp => by
    rw [place]
    exact ⟨k, sp, by rw [List.append_nil]; rfl, by rwa [List.append_nil], by rwa [List.append_nil]⟩
  | s :: argv, done, k, sp, h, hsp => by
    have happ := used_append done [s]
    have hone := used_singleton s
    have hpush := toNat_push hsp (used_mod done) s.short h.few
    rw [← hone, ← happ] at hpush
    rw [place, Kmem.pushArgs, length_addrs]
    by_cases hmax : MAXARG ≤ done.length
    · rw [if_pos hmax, if_pos hmax]
      exact ⟨k, rfl, h.toBuilding⟩
    rw [if_neg hmax, if_neg hmax]
    generalize (sp - UInt64.ofNat (s.bytes.length + 1)) &&& ~~~ 7 = va at hpush
    dsimp only
    by_cases hfit : used (done ++ [s]) ≤ 4096
    · have hthree := h.three
      rw [if_pos (by omega)] at hpush
      obtain ⟨k₁, hok, h₁⟩ := h.push hpush hfit
      have haddr : addrs m done ++ [va] = addrs m (done ++ [s]) := by
        rw [addrs_append, show 4096 * m - used (done ++ [s]) = va.toNat by omega,
          UInt64.ofNat_toNat]
      have hrest := Stacked.pushArgs argv h₁ hpush
      rw [List.append_assoc, List.singleton_append, ← haddr] at hrest
      rw [if_pos hfit, hok]
      exact hrest
    rw [if_neg hfit]
    by_cases htop : used (done ++ [s]) ≤ 4096 * m
    · rw [if_pos htop] at hpush
      have hlen := length_stored s
      obtain ⟨k₁, hok, hb⟩ := h.copyout_fail hpush (by omega) (by omega) (stored_ne_nil s)
      rw [if_pos htop, hok]
      exact ⟨k₁, rfl, hb⟩
    · rw [if_neg htop] at hpush
      rw [if_neg htop, h.copyout_high hpush (stored_ne_nil s)]
      rfl

/-! ## The guard page -/

/-- The last page of the image may as well be full. -/
theorem Loading.round {st : Loaded} (h : Loading B k₀ l₀ r st k l) :
    Loading B k₀ l₀ r { st with sz := pgroundup st.sz } k l ∧
      (pgroundup st.sz).toNat = 4096 * npages st.sz := by
  have hnp := h.spans.npages_le h.space
  have hup := toNat_pgroundup (a := st.sz) (by rw [npages] at hnp; omega)
  have heq : (pgroundup st.sz).toNat = 4096 * npages st.sz := by rw [hup, npages, Nat.mul_comm]
  have hpages : npages (pgroundup st.sz) = npages st.sz := by
    rw [npages, heq]
    omega
  have hle : st.sz ≤ pgroundup st.sz := UInt64.le_iff_toNat_le.2 (by omega)
  refine ⟨⟨h.toBuilding, ?_, ?_, h.low, fun hp => h.fresh (UInt64.le_trans hle hp),
    UInt64.le_trans h.page hle, ?_, ?_⟩, heq⟩
  · simpa only [Spans, hpages] using h.spans
  · simpa only [hpages] using h.flags
  · simpa only [hpages] using h.data
  · simpa only [hpages] using h.tail

theorem flags_of_image {fl : UInt64} (pg : Page) (h : image k r v = some (fl, pg)) :
    pteFlags (pte k r v) = fl := by
  rw [image, Option.map_eq_some_iff] at h
  obtain ⟨p, -, hp⟩ := h
  exact (Prod.mk.inj hp).1

/-- **Two pages for the stack**, the first of them without the user flag. -/
theorem Loading.guard {st : Loaded} (h : Loading B k₀ l₀ r st k l) {two : UInt64}
    (htwo : two.toNat = 8192) :
    Spends .outOfMemory (fun _ => False) 8 l.length
      (k.allocuvm B r (pgroundup st.sz) (pgroundup st.sz + two)) fun (sz, k₁) n =>
        ∃ l', l'.length = n ∧ sz.toNat = 4096 * (npages st.sz + 2) ∧
          ∃ k', k₁.clearpteu r (sz - two) = .ok k' ∧
            Stacked B k₀ l₀ r st.zero (npages st.sz + 2) st.data [] k' l' := by
  obtain ⟨hround, hup⟩ := h.round
  have hnp := h.spans.npages_le h.space
  have hpos := h.npages_pos
  have hnew : (pgroundup st.sz + two).toNat = 4096 * (npages st.sz + 2) := by
    rw [UInt64.toNat_add, hup, htwo]
    omega
  have hnot : ¬ pgroundup st.sz + two < pgroundup st.sz := by
    rw [UInt64.lt_iff_toNat_lt]
    omega
  have hlt : pgroundup st.sz + two < KERNBASE := by
    rw [UInt64.lt_iff_toNat_lt, show KERNBASE.toNat = 0xFFFF800000000000 from rfl]
    omega
  have halloc := hround.allocuvm hlt
  simp only [if_neg hnot] at halloc
  have hpages : npages (pgroundup st.sz + two) = npages st.sz + 2 := by
    rw [npages, hnew]
    omega
  have hpages' : npages (pgroundup st.sz) = npages st.sz := by
    rw [npages, hup]
    omega
  refine halloc.mono (by omega) (fun _ => id) ?_
  rintro ⟨sz, k₁⟩ n ⟨l', rfl, rfl, hL⟩
  generalize hsz : pgroundup st.sz + two = sz at hL hnew hpages
  have hguard : (sz - two).toNat / 4096 = npages st.sz := by
    rw [UInt64.toNat_sub_of_le _ _ (UInt64.le_iff_toNat_le.2 (by omega)), hnew, htwo]
    omega
  have hmap : ∀ v, (userPage k₁ r v).isSome ↔ 1 ≤ v ∧ v < npages st.sz + 2 := by
    intro v
    rw [← hpages]
    exact hL.spans v
  obtain ⟨t, ht⟩ := table_of_mapped ((hmap (npages st.sz)).2 (by omega))
  obtain ⟨k', hok, hs, hk, himg⟩ := hL.space.clearpteu hguard (by omega) ht
  refine ⟨l', rfl, hnew, k', hok, hL.toBuilding.keeps hs hk, by omega, fun v => ?_,
    fun v h1 h2 => ?_, fun a h1 h2 => ?_, Nat.zero_le _, fun j s hj => by cases hj⟩
  · rw [← hmap v, ← image_isSome, ← image_isSome, himg]
    split_ifs with hv
    · rw [Option.isSome_map, hv]
    · rfl
  · have h7 := hL.flags v h1 (hpages.symm ▸ h2)
    obtain ⟨⟨fl, pg⟩, hi⟩ := Option.isSome_iff_exists.1 (image_isSome.2 ((hmap v).2 ⟨h1, h2⟩))
    obtain rfl : fl = 7 := (flags_of_image pg hi).symm.trans h7
    by_cases hv : v = npages st.sz
    · rw [if_pos (by omega)]
      refine flags_of_image pg ?_
      rw [himg, if_pos hv, ← hv, hi, Option.map_some, show (7 : UInt64) &&& ~~~ PTE_U = 3 by decide]
    · rw [if_neg (by omega)]
      refine flags_of_image pg ?_
      rw [himg, if_neg hv, hi]
  · have hold := hL.data a h1 (by change a < 4096 * npages sz; omega)
    rw [ubyte, himg, if_neg (by omega)]
    exact hold

end Kmem

end Xv6

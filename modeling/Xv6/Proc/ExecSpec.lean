import Xv6.Proc.SysInvariant
import Xv6.Vm.ImageSpec

/-!
# What `exec` does

`exec` builds a new image in pages from the free list and then frees the old address space. A failure
before that point gives all pages back. The old address space can be freed exactly when its user pages
all lie below the old size; a page above it, left by `map_ro` or by a region, makes the kernel panic.
-/

namespace Xv6

open Library List Vm

variable [KernelImage]

section Load

variable {root tf sz : ℕ} {s₀ s : Phys}

/-- Every page of an image is found by `walkaddr`. -/
theorem Vm.Image.walkaddr {va : ℕ} (h : Image root tf sz s₀ s) (hva : va / 4096 < pageCount sz)
    (hmax : va < MAXVA) :
    Ensures (walkaddr root va) s fun r s' => s' = s ∧ r ≠ 0 ∧
      ∃ w, leaf s.mem root (va / 4096) = some w ∧ r = PTE2PA w := by
  obtain ⟨w, hw, hU⟩ := h.below _ hva
  refine (walkaddr_translation root s va).mono ?_
  intro r s' hr
  obtain ⟨rfl, hr⟩ := hr
  rw [if_pos hmax, userAddress_of_leaf hw, hU, if_pos rfl] at hr
  exact ⟨rfl, hr ▸ h.space.within.space.page_ne_zero hw, w, hw, hr⟩

/-- The loop of `loadseg` writes pages of the image. -/
theorem loadsegLoop_image (file : ExecFile) (va offset len n i : ℕ) (s : Phys)
    (h : Image root tf sz s₀ s) (hsz : sz ≤ TRAPFRAME) (hin : ∀ j < n, va + i + j * 4096 < sz) :
    Ensures (loadsegLoop root va file offset len n i) s fun _ s' => Image root tf sz s₀ s' := by
  induction n generalizing i s with
  | zero =>
    rw [loadsegLoop, ensures_pure]
    exact h
  | succ n ih =>
    have hlt : va + i < sz := by
      have := hin 0 (Nat.succ_pos n)
      omega
    have hbound : va + i < 2 ^ 38 - 8192 := lt_of_lt_of_le hlt hsz
    have hmod : (va + i) % UINT64 = va + i := Nat.mod_eq_of_lt (by
      change va + i < 2 ^ 64
      omega)
    have hpage : (va + i) / 4096 < pageCount sz := by
      rw [lt_pageCount_iff]
      omega
    have htramp : (va + i) / 4096 ≠ trampVpn := by
      change (va + i) / 4096 ≠ 67108863
      omega
    rw [loadsegLoop, ensures_bind, hmod]
    refine (h.walkaddr hpage (show va + i < 2 ^ 38 by omega)).mono ?_
    intro r s' hr
    obtain ⟨rfl, hne, w, hw, rfl⟩ := hr
    rw [if_neg hne]
    simp only [ensures_bind, ensures_modify]
    have hwrite := fun page => h.write htramp hw page
    rw [ensures_ite]
    constructor
    · intro _
      rw [ensures_pure]
      exact hwrite _
    · intro _
      apply ih _ _ (hwrite _)
      intro j hj
      have := hin (j + 1) (Nat.succ_lt_succ hj)
      change va + (i + 4096) + j * 4096 < sz
      omega

/-- Loading a segment that lies below the size of the image. -/
theorem loadseg_image (file : ExecFile) {va offset len : ℕ} (h : Image root tf sz s₀ s) (hsz : sz ≤ TRAPFRAME)
    (hin : va + len ≤ sz) : Ensures (loadseg root va file offset len) s fun _ s' => Image root tf sz s₀ s' := by
  apply loadsegLoop_image file va offset len _ 0 s h hsz
  intro j hj
  change j < (len + 4095) / 4096 at hj
  omega

omit [KernelImage] in
/-- The permissions of a segment are small. -/
theorem flags2perm_user (flags : ℕ) : PTE_R ||| PTE_U ||| flags2perm flags < 1024 ∧
    hasFlag (PTE_R ||| PTE_U ||| flags2perm flags) PTE_U = true := by
  rw [flags2perm]
  cases hasFlag flags 1 <;> cases hasFlag flags 2 <;> decide

omit [KernelImage] in
theorem field_lt (header : List UInt8) (off w : ℕ) : field header off w < 256 ^ w := wordOfBytes_lt w _

omit [KernelImage] in
/-- The end of a segment that passes the check of `exec` has not wrapped around. -/
theorem segment_end {vaddr memsz : ℕ} (hv : vaddr < 2 ^ 64) (hm : memsz < 2 ^ 64)
    (hcheck : ¬ (vaddr + memsz) % UINT64 < vaddr) : (vaddr + memsz) % UINT64 = vaddr + memsz := by
  change ¬ (vaddr + memsz) % 2 ^ 64 < vaddr at hcheck
  change (vaddr + memsz) % 2 ^ 64 = vaddr + memsz
  omega

/-- The loop of `exec` over the program headers only extends and writes the image. -/
theorem loadSegments_image (file : ExecFile) (hfree : FreeOk s₀.freelist) (n off sz : ℕ) (s : Phys)
    (h : Image root tf sz s₀ s) :
    Ensures (loadSegments file root n off sz) s fun r s' => Image root tf r.1 s₀ s' := by
  induction n generalizing off sz s with
  | zero =>
    rw [loadSegments, ensures_pure]
    exact h
  | succ n ih =>
    rw [loadSegments]
    dsimp only
    generalize hph : parseProgHdr (file.readi off proghdrBytes) = ph
    have hvaddr : ph.vaddr < 2 ^ 64 := by
      rw [← hph]
      exact field_lt _ 16 8
    have hmemsz : ph.memsz < 2 ^ 64 := by
      rw [← hph]
      exact field_lt _ 40 8
    rw [ensures_ite]
    refine ⟨fun _ => (ensures_pure _ _ _).2 h, fun _ => ?_⟩
    rw [ensures_ite]
    refine ⟨fun _ => ih _ sz s h, fun _ => ?_⟩
    rw [ensures_ite]
    refine ⟨fun _ => (ensures_pure _ _ _).2 h, fun hfilesz => ?_⟩
    rw [ensures_ite]
    refine ⟨fun _ => (ensures_pure _ _ _).2 h, fun hwrap => ?_⟩
    rw [ensures_ite]
    refine ⟨fun _ => (ensures_pure _ _ _).2 h, fun _ => ?_⟩
    have hend := segment_end hvaddr hmemsz hwrap
    rw [ensures_bind, hend]
    obtain ⟨hperm, hU⟩ := flags2perm_user ph.flags
    refine (h.uvmalloc_max hfree hperm hU).mono ?_
    intro sz1 s₁ h₁
    rw [ensures_ite]
    constructor
    · intro hzero
      rw [ensures_pure]
      obtain ⟨-, hi⟩ | ⟨hsz, -, hi⟩ := h₁
      · exact hi
      · have hsz1 : sz1 = sz := by omega
        exact hsz1 ▸ hi
    · intro hne
      obtain ⟨hzero, -⟩ | ⟨-, hle, hi⟩ := h₁
      · exact absurd hzero hne
      rw [ensures_bind]
      have hin : ph.vaddr + ph.filesz % UINT32 ≤ sz1 := by
        have hmod : ph.filesz % UINT32 ≤ ph.filesz := Nat.mod_le _ _
        omega
      refine (loadseg_image file hi (hi.size_le hfree) hin).mono ?_
      intro r s₂ h₂
      rw [ensures_ite]
      exact ⟨fun _ => (ensures_pure _ _ _).2 h₂, fun _ => ih _ sz1 s₂ h₂⟩

end Load

variable {argv : List (List UInt8)}

section Stack

variable {p : Proc} {root tf sz v w : ℕ} {s₀ s : Phys}

/-- A copy into one page of the image. -/
theorem copyout_page {src : List UInt8} {dst : ℕ} (h : Built root tf sz s₀ s) (hv : v < tfVpn)
    (hw : leaf s.mem root v = some w) (hU : hasFlag w PTE_U = true) (hW : hasFlag w PTE_W = true)
    (hdst : dst / 4096 = v) (hlen : dst % 4096 + src.length ≤ 4096) :
    Ensures (copyout p root dst src) s fun _ s' => Built root tf sz s₀ s' ∧
      ∀ u, leaf s'.mem root u = leaf s.mem root u := by
  have hvn : v < 67108862 := hv
  have htramp : v ≠ trampVpn := by
    change v ≠ 67108863
    omega
  rw [Xv6.Vm.copyout]
  by_cases hnil : src.length = 0
  · rw [dif_pos hnil, ensures_pure]
    exact ⟨h, fun _ => rfl⟩
  obtain ⟨hoff, -, hdiv, hle, hlt⟩ := chunk_facts dst
  have hlow : PGROUNDDOWN dst < MAXVA := by
    change PGROUNDDOWN dst < 2 ^ 38
    omega
  rw [dif_neg hnil]
  dsimp only
  rw [if_neg (not_le.2 hlow), ensures_bind, userPage, ensures_bind]
  refine (walkaddr_translation root s _).mono ?_
  intro r s₁ hr
  obtain ⟨rfl, hr⟩ := hr
  rw [hdst] at hdiv
  rw [if_pos hlow, userAddress_of_leaf (hdiv ▸ hw), hU, if_pos rfl] at hr
  have hne : r ≠ 0 := hr ▸ h.space.within.space.page_ne_zero hw
  rw [if_neg hne, ensures_pure, if_neg hne, ensures_bind, ensures_walk_false hlow, hdiv]
  obtain ⟨t, ht, hpte⟩ := leafTable_of_leaf hw
  rw [ht, PX_zero_eq, hdiv]
  change Ensures (readPte _ >>= _) s₁ _
  rw [ensures_bind, ensures_readPte, hpte, hW, Bool.not_true, if_neg Bool.false_ne_true, ensures_bind,
    ensures_modify, hoff, hr]
  have hn : min (PGSIZE - dst % 4096) src.length = src.length := by
    change min (4096 - dst % 4096) src.length = src.length
    omega
  rw [hn, drop_length, Xv6.Vm.copyout, dif_pos length_nil, ensures_pure]
  exact h.write htramp hw _

/-- The loop of `exec` over the arguments stays in the page of the stack. -/
theorem pushArgs_built (hv : v < tfVpn) (hpos : 1 ≤ v) (hU : hasFlag w PTE_U = true)
    (hW : hasFlag w PTE_W = true) (args : List (List UInt8)) (hargs : ∀ arg ∈ args, arg.length < 4096)
    (sp : ℕ) (ustack : List ℕ) (s : Phys) (h : Built root tf sz s₀ s)
    (hw : leaf s.mem root v = some w) (hlow : v * 4096 ≤ sp) (hhigh : sp ≤ (v + 1) * 4096) :
    Ensures (pushArgs p root (v * 4096) args sp ustack) s fun r s' => Built root tf sz s₀ s' ∧
      leaf s'.mem root v = some w ∧ ∀ sp' ustack', r = some (sp', ustack') →
        v * 4096 ≤ sp' ∧ sp' ≤ (v + 1) * 4096 ∧ ustack'.length = ustack.length + args.length := by
  have hvn : v < 67108862 := hv
  induction args generalizing sp ustack s with
  | nil =>
    rw [pushArgs, ensures_pure]
    refine ⟨h, hw, ?_⟩
    intro sp' ustack' heq
    cases heq
    exact ⟨hlow, hhigh, rfl⟩
  | cons arg rest ih =>
    have harg : arg.length < 4096 := hargs arg mem_cons_self
    have hsp1 : (sp + UINT64 - (arg.length + 1)) % UINT64 = sp - (arg.length + 1) := by
      change (sp + 2 ^ 64 - (arg.length + 1)) % 2 ^ 64 = sp - (arg.length + 1)
      omega
    rw [pushArgs, hsp1]
    dsimp only
    generalize hsp2 : sp - (arg.length + 1) - (sp - (arg.length + 1)) % 16 = sp2
    rw [ensures_ite]
    refine ⟨fun _ => (ensures_pure _ _ _).2 ⟨h, hw, nofun⟩, fun _ => ?_⟩
    rw [ensures_ite]
    refine ⟨fun _ => (ensures_pure _ _ _).2 ⟨h, hw, nofun⟩, fun hbase => ?_⟩
    have hlen : (arg ++ [0]).length = arg.length + 1 := length_append
    rw [ensures_bind]
    refine (copyout_page h hv hw hU hW (by omega) (by omega)).mono ?_
    intro r s₁ h₁
    obtain ⟨hb₁, hleaf⟩ := h₁
    have hw₁ : leaf s₁.mem root v = some w := (hleaf v).trans hw
    rw [ensures_ite]
    refine ⟨fun _ => (ensures_pure _ _ _).2 ⟨hb₁, hw₁, nofun⟩, fun _ => ?_⟩
    refine (ih (fun a ha => hargs a (mem_cons_of_mem _ ha)) sp2 (sp2 :: ustack) s₁ hb₁ hw₁
      (by omega) (by omega)).mono ?_
    intro r s₂ h₂
    obtain ⟨hb₂, hw₂, hres⟩ := h₂
    refine ⟨hb₂, hw₂, ?_⟩
    intro sp' ustack' heq
    obtain ⟨h1, h2, h3⟩ := hres sp' ustack' heq
    refine ⟨h1, h2, ?_⟩
    rw [h3, length_cons, length_cons]
    omega

omit [KernelImage] in
/-- The array of the addresses of the arguments. -/
theorem pointers_length (l : List ℕ) : (l.flatMap pointerBytes).length = 8 * l.length := by
  induction l with
  | nil => rfl
  | cons x l ih =>
    rw [flatMap_cons, length_append, ih, length_cons, pointerBytes, length_map, length_range]
    omega

/-- The arguments that `sys_exec` passes on: each fits in a page, and there are not too many. -/
def ArgvOk (argv : List (List UInt8)) : Prop := argv.length < MAXARG ∧ ∀ arg ∈ argv, arg.length < PGSIZE

/-- The arguments and the array of their addresses stay in the page of the stack. -/
theorem pushStack_built (hargv : ArgvOk argv) (h : Built root tf sz s₀ s) (hv : v < tfVpn) (hpos : 1 ≤ v)
    (hw : leaf s.mem root v = some w) (hU : hasFlag w PTE_U = true) (hW : hasFlag w PTE_W = true) :
    Ensures (pushStack p root ((v + 1) * 4096) argv) s fun _ s' => Built root tf sz s₀ s' := by
  have hvn : v < 67108862 := hv
  have hbase : (v + 1) * 4096 - USERSTACK * PGSIZE = v * 4096 := by
    change (v + 1) * 4096 - 1 * 4096 = v * 4096
    omega
  rw [pushStack, hbase]
  dsimp only
  rw [ensures_bind]
  refine (pushArgs_built hv hpos hU hW argv hargv.2 _ [] s h hw (by omega) (le_refl _)).mono ?_
  intro r s₁ h₁
  obtain ⟨hb₁, hw₁, hres⟩ := h₁
  match r, hres with
  | none, _ =>
    rw [ensures_pure]
    exact hb₁
  | some (sp, ustack), hres =>
    obtain ⟨hlow, hhigh, hlen⟩ := hres sp ustack rfl
    have hargc : argv.length < 32 := hargv.1
    have hbytes : ((ustack.reverse ++ [0]).flatMap pointerBytes).length = 8 * (argv.length + 1) := by
      rw [pointers_length, length_append, length_reverse, hlen]
      rw [length_nil, Nat.zero_add]
      rfl
    have hsp1 : (sp + UINT64 - (argv.length + 1) * 8) % UINT64 = sp - (argv.length + 1) * 8 := by
      change (sp + 2 ^ 64 - (argv.length + 1) * 8) % 2 ^ 64 = sp - (argv.length + 1) * 8
      omega
    dsimp only
    rw [hsp1]
    generalize hsp2 : sp - (argv.length + 1) * 8 - (sp - (argv.length + 1) * 8) % 16 = sp2
    rw [ensures_ite]
    refine ⟨fun _ => (ensures_pure _ _ _).2 hb₁, fun hge => ?_⟩
    rw [ensures_bind]
    refine (copyout_page hb₁ hv hw₁ hU hW (by omega) (by omega)).mono ?_
    intro r s₂ h₂
    rw [ensures_ite]
    exact ⟨fun _ => (ensures_pure _ _ _).2 h₂.1, fun _ => (ensures_pure _ _ _).2 h₂.1⟩

/-- A page boundary is as good as the size. -/
theorem Vm.Image.roundup (h : Image root tf sz s₀ s) : Image root tf (pageCount sz * 4096) s₀ s := by
  have hcount : pageCount (pageCount sz * 4096) = pageCount sz := by
    generalize pageCount sz = n
    rw [pageCount]
    omega
  refine ⟨⟨h.space, h.step, ?_, ?_⟩, ?_⟩
  · rw [hcount]
    exact h.only
  · rw [hcount]
    exact h.room
  · rw [hcount]
    exact h.below

/-- The image that `exec` builds, whether it is complete or not. -/
theorem buildImage_built {file : ExecFile} {elf : ElfHdr}
    (hargv : ArgvOk argv) (hfree : FreeOk s₀.freelist) (h : Image root tf 0 s₀ s) :
    Ensures (buildImage p root file elf argv) s fun r s' => Built root tf r.1 s₀ s' := by
  rw [buildImage, ensures_bind]
  refine (loadSegments_image file hfree elf.phnum (elf.phoff % UINT32) 0 s h).mono ?_
  intro r s₁ h₁
  obtain ⟨sz, ok⟩ := r
  dsimp only at h₁ ⊢
  rw [ensures_ite]
  refine ⟨fun _ => (ensures_pure _ _ _).2 h₁.toBuilt, fun _ => ?_⟩
  have hsz := h₁.size_le hfree
  have hcount := h₁.pageCount_le hfree
  have h₂ := h₁.roundup
  rw [PGROUNDUP_eq (hsz.trans (by decide))]
  generalize pageCount sz = n at h₂ hcount
  have hnew : (n * 4096 + (USERSTACK + 1) * PGSIZE) % UINT64 = (n + 2) * 4096 := by
    change (n * 4096 + (1 + 1) * 4096) % 2 ^ 64 = (n + 2) * 4096
    omega
  have hguard : (n + 2) * 4096 - (USERSTACK + 1) * PGSIZE = n * 4096 := by
    change (n + 2) * 4096 - (1 + 1) * 4096 = n * 4096
    omega
  have hc₁ : pageCount (n * 4096) = n := by
    rw [pageCount]
    omega
  have hc₂ : pageCount ((n + 2) * 4096) = n + 2 := by
    rw [pageCount]
    omega
  rw [hnew, ensures_bind]
  refine (h₂.uvmalloc hfree (by decide) (by decide) (by omega)).mono ?_
  intro r s₂ hr
  obtain ⟨rfl, hi, hcleared⟩ | ⟨rfl, hi⟩ := hr
  · rw [if_neg (by omega), hguard, ensures_bind]
    rw [hc₁, hc₂] at hcleared
    obtain ⟨w, hw, -⟩ := hi.below n (by omega)
    refine (hi.toBuilt.uvmclear (show n < 67108862 by omega) hw).mono ?_
    intro _ s₃ h₃
    obtain ⟨hb, hleaf⟩ := h₃
    obtain ⟨m, -, -, hstack, -⟩ := hcleared.fresh (n + 1) (by omega) (by omega)
    have hstack₃ : leaf s₃.mem root (n + 1) = some (mkPte m (PTE_R ||| PTE_U ||| PTE_W)) := by
      rw [hleaf, Function.update_of_ne (by omega), hstack]
    rw [ensures_bind]
    refine (pushStack_built hargv hb (show n + 1 < 67108862 by omega) (by omega) hstack₃
      (hasFlag_mkPte (by decide)) (hasFlag_mkPte (by decide))).mono ?_
    intro sp s₄ h₄
    rw [ensures_pure]
    exact h₄
  · rw [if_pos rfl, ensures_pure]
    exact hi.toBuilt

end Stack

section Resources

variable {root tf sz : ℕ} {s s₀ s₁ : Phys}

/-- A new page table and the free list hold the trapframe and the pages that were free before. -/
theorem NewSpace.mem_resources (h : NewSpace root tf s s₀) (x : ℕ) :
    x ∈ resources s₀ root ↔ x ∈ s.freelist ∨ x = tf := by
  rw [h.space.mem_resources_new h.only, ← h.split, or_comm]

/-- The pages that `proc_freepagetable` frees: the tables and the pages below a size. -/
def spacePages (mem : ℕ → Page) (root sz : ℕ) : Set ℕ :=
  tables mem root ∪ leafPagesIn mem root {v | v < pageCount sz}

/-- These pages belong to the address space, and the trapframe is not among them. -/
theorem Vm.ProcSpace.spacePages_out (h : ProcSpace s root tf) (hsz : sz ≤ TRAPFRAME) {x : ℕ}
    (hx : x ∈ spacePages s.mem root sz) :
    PageAddress x ∧ x ∈ reach (child s.mem) 3 root ∧ x ∉ s.freelist ∧ x ≠ tf := by
  have hlow : ∀ v < pageCount sz, v < tfVpn := fun v hv => lt_of_lt_of_le hv (pageCount_le hsz)
  obtain ⟨hpa, hreach, hfree⟩ := h.page_out (x := x) (hx.imp_right fun ⟨v, hv, w, hw, hwx⟩ =>
    ⟨v, w, hw, hwx, fun heq => absurd (hlow _ (heq ▸ hv)) (by decide)⟩)
  refine ⟨hpa, hreach, hfree, ?_⟩
  rintro rfl
  obtain ht | ⟨v, hv, w, hw, heq⟩ := hx
  · exact h.tf_out.1 ht
  · have hvtf := h.within.space.inj v tfVpn w _ hw h.tfLeaf (heq.trans h.PTE2PA_tf.symm)
    exact absurd (hlow _ (hvtf ▸ hv)) (lt_irrefl _)

/-- What an address space without pages above its size holds. -/
theorem Vm.ProcSpace.mem_resources_below (h : ProcSpace s root tf) (hsz : sz ≤ TRAPFRAME)
    (honly : ∀ v w, leaf s.mem root v = some w → v < tfVpn → v < pageCount sz) (x : ℕ) :
    x ∈ resources s root ↔ x ∈ spacePages s.mem root sz ∨ x = tf ∨ x ∈ s.freelist := by
  constructor
  · intro hx
    obtain (ht | ⟨v, w, hw, hwx, hv⟩) | hx := h.mem_resources.1 hx
    · exact .inl (.inl ht)
    · obtain hlow | rfl | rfl := h.within.space.leaf_cases hw
      · exact .inl (.inr ⟨v, honly v w hw hlow, w, hw, hwx⟩)
      · rw [h.tfLeaf] at hw
        rw [← hwx, ← Option.some.inj hw, h.PTE2PA_tf]
        exact .inr (.inl rfl)
      · exact absurd rfl hv
    · exact .inr (.inr hx)
  · intro hx
    obtain hx | rfl | hx := hx
    · obtain ⟨hpa, hreach, -⟩ := h.spacePages_out hsz hx
      exact ⟨hpa, .inl hreach⟩
    · exact h.tf_resource
    · exact ⟨h.within.free.valid x hx, .inr hx⟩

/-- `proc_freepagetable` frees the tables and the pages below the size, if there is no page above. -/
theorem procFreepagetable_spec (hs : Space s.mem root) (hsz : sz ≤ TRAPFRAME) (hlow : LowPages s.mem root) :
    Yields (procFreepagetable root sz) s
      (fun _ s' => (∀ v w, leaf s.mem root v = some w → v < tfVpn → v < pageCount sz) ∧
        ∃ freed, Freed (spacePages s.mem root sz) s s' freed)
      (fun e => e = .freewalkLeaf ∧
        ∃ v w, leaf s.mem root v = some w ∧ v < tfVpn ∧ ¬ v < pageCount sz) := by
  have hd : Dropped root s s ∅ ∅ [] := Dropped.refl hs (fun v hv => nomatch hv) (fun v hv => hv)
  refine (procFreepagetable_dropped hs (Set.Subset.refl _) hd hsz hlow).mono ?_ ?_
  · intro _ s' h
    obtain ⟨honly, freed, hfreed⟩ := h
    refine ⟨fun v w hw hv => (honly v w hw hv).resolve_left nofun, freed, ?_⟩
    apply hfreed.congr
    intro x
    have hset : (∅ ∪ {v | v < pageCount sz ∧ v ∉ (∅ : Set ℕ)} : Set ℕ) = {v | v < pageCount sz} := by
      ext v
      simp
    rw [hset]
    rfl
  · intro e he
    obtain ⟨he, v, w, hw, hv, -, hcount⟩ := he
    exact ⟨he, v, w, hw, hv, hcount⟩

end Resources

section Outcome

variable {p : Proc} {root sz : ℕ} {s s₀ s₁ : Phys}

/-- `exec` has failed: the pages that it took are free again. -/
structure ExecFailed (p : Proc) (s s' : Phys) : Prop where
  free : FreeOk s'.freelist
  split : ∀ x, x ∈ s'.freelist ↔ x ∈ s.freelist
  frame : ∀ x, x ∉ s.freelist → x ≠ p.trapframe → s'.mem x = s.mem x

/-- `exec` has replaced the image: the old pages are free, and the new ones were free before. -/
structure Executed (p : Proc) (s : Phys) (p' : Proc) (s' : Phys) : Prop where
  record : p' = { p with name := p'.name, pagetable := p'.pagetable, sz := p'.sz }
  tracked : ∀ v w, leaf s.mem p.pagetable v = some w → v < tfVpn → v < pageCount p.sz
  space : ProcSpace s' p'.pagetable p.trapframe
  size : p'.sz ≤ TRAPFRAME
  only : ∀ v w, leaf s'.mem p'.pagetable v = some w → v < tfVpn → v < pageCount p'.sz
  freed : ∃ freed rest, s'.freelist = freed ++ rest ∧ freed.Nodup ∧
    (∀ x, x ∈ freed ↔ x ∈ spacePages s.mem p.pagetable p.sz) ∧
    ∀ x, x ∈ s.freelist ↔ x ∈ spacePages s'.mem p'.pagetable p'.sz ∨ x ∈ rest
  frame : ∀ x, x ∉ resources s p.pagetable → s'.mem x = s.mem x

/-- The pages below the new image were free or the trapframe. -/
theorem Vm.Built.split {tf : ℕ} (hns : NewSpace root tf s s₀)
    (hb : Built root tf sz s₀ s₁) (htf : tf ∉ s.freelist) :
    (∀ x, x ∈ s.freelist ↔ x ∈ spacePages s₁.mem root sz ∨ x ∈ s₁.freelist) ∧
      ∀ x, x ∉ s.freelist → x ≠ tf → s₁.mem x = s.mem x := by
  have hfree₀ := hns.space.within.free
  have hsz := hb.size_le hfree₀
  have honly : ∀ v w, leaf s₁.mem root v = some w → v < tfVpn → v < pageCount sz := by
    intro v w hw hv
    have hcase := hb.only v w hw
    change _ ∨ v = 67108863 ∨ v = 67108862 at hcase
    have hv' : v < 67108862 := hv
    omega
  have hres : ∀ x, x ∈ s.freelist ∨ x = tf ↔
      x ∈ spacePages s₁.mem root sz ∨ x = tf ∨ x ∈ s₁.freelist := by
    intro x
    rw [← hns.mem_resources, ← hb.space.mem_resources_below hsz honly, hb.step.conserve]
  have htf₁ : tf ∉ s₁.freelist := by
    intro hx
    apply hb.space.within.apart tf hx
    exact mem_reach_three.2 (.inr ⟨tfVpn, _, hb.space.tfLeaf, hb.space.PTE2PA_tf⟩)
  constructor
  · intro x
    constructor
    · intro hx
      obtain hp | rfl | hr := (hres x).1 (.inl hx)
      · exact .inl hp
      · exact absurd hx htf
      · exact .inr hr
    · intro hx
      obtain hp | hr := hx
      · exact ((hres x).2 (.inl hp)).resolve_right (hb.space.spacePages_out hsz hp).2.2.2
      · exact ((hres x).2 (.inr (.inr hr))).resolve_right fun heq => htf₁ (heq ▸ hr)
  · intro x hx hne
    rw [← hns.frame x hx]
    apply hb.step.frame
    rw [hns.mem_resources]
    exact fun h => h.elim hx hne

/-- The trapframe of a process is not free. -/
theorem Proc.Ok.trapframe_not_free (h : p.Ok s) : p.trapframe ∉ s.freelist := by
  intro hx
  apply h.space.within.apart _ hx
  exact mem_reach_three.2 (.inr ⟨tfVpn, _, h.space.tfLeaf, h.space.PTE2PA_tf⟩)

/-- Giving up an image. -/
theorem Vm.Built.abandon (hns : NewSpace root p.trapframe s s₀)
    (hb : Built root p.trapframe sz s₀ s₁) (htf : p.trapframe ∉ s.freelist) :
    Ensures (procFreepagetable root sz) s₁ fun _ s' => ExecFailed p s s' := by
  obtain ⟨hsplit, hframe⟩ := hb.split hns htf
  have hsz := hb.size_le hns.space.within.free
  have hfree := procFreepagetable_spec hb.space.within.space hsz hb.space.lowPages
  apply (hfree.mono _ _).ensures (R := fun _ => False) (fun _ => id)
  · intro _ s' h
    obtain ⟨-, freed, hfreed⟩ := h
    have hmem : ∀ x, x ∈ s'.freelist ↔ x ∈ s.freelist := by
      intro x
      rw [hfreed.freelist, mem_append, hfreed.mem_iff, hsplit]
    have hout : ∀ x ∈ spacePages s₁.mem root sz, PageAddress x ∧ x ∉ s₁.freelist := by
      intro x hx
      obtain ⟨hpa, -, hfree, -⟩ := hb.space.spacePages_out hsz hx
      exact ⟨hpa, hfree⟩
    refine ⟨hfreed.freeOk hb.space.within.free hout, hmem, ?_⟩
    intro x hx hne
    rw [hfreed.frame x fun hp => hx ((hsplit x).2 (.inl hp))]
    exact hframe x hx hne
  · intro e he
    obtain ⟨-, v, w, hw, hv, hcount⟩ := he
    have hcase := hb.only v w hw
    change _ ∨ v = 67108863 ∨ v = 67108862 at hcase
    have hv' : v < 67108862 := hv
    omega

section

variable (h : p.Ok s) (hns : NewSpace root p.trapframe s s₀) (hb : Built root p.trapframe sz s₀ s₁) (page : Page)

include h hns hb page

/-- The old address space is not touched while the new image is built. -/
theorem Vm.Built.old_tables : ∀ t ∈ tables s.mem p.pagetable, (s₁.setPage p.trapframe page).mem t = s.mem t := by
  have hspace := h.space
  have htfout := h.trapframe_not_free
  intro t ht
  have htree : t ∈ spacePages s.mem p.pagetable p.sz := .inl ht
  obtain ⟨-, -, hfree, hne⟩ := hspace.spacePages_out h.size htree
  rw [setPage_mem_of_ne _ hne]
  exact (hb.split hns htfout).2 t hfree hne

/-- Freeing the old address space after the new one has been built. -/
theorem Vm.Built.commit (name : List UInt8) :
    Yields (procFreepagetable p.pagetable p.sz) (s₁.setPage p.trapframe page)
      (fun _ s' => Executed p s { p with name := name, pagetable := root, sz := sz } s')
      (fun e => e = .freewalkLeaf ∧
        ∃ v w, leaf s.mem p.pagetable v = some w ∧ v < tfVpn ∧ ¬ v < pageCount p.sz) := by
  have hspace := h.space
  have htfout := h.trapframe_not_free
  obtain ⟨hsplit, hframe⟩ := hb.split hns htfout
  have hsz := hb.size_le hns.space.within.free
  have hold := hb.old_tables h hns page
  have hleaf := leaf_congr hold
  have hpages : spacePages (s₁.setPage p.trapframe page).mem p.pagetable p.sz =
      spacePages s.mem p.pagetable p.sz := by
    rw [spacePages, spacePages, tables_congr hold, leafPagesIn, leafPagesIn]
    simp only [hleaf]
  have hfree := procFreepagetable_spec (hspace.within.space.congr hold) h.size fun v w hv hw =>
    hspace.lowPages v w hv ((hleaf v).symm.trans hw)
  rw [hpages] at hfree
  simp only [hleaf] at hfree
  refine hfree.mono ?_ fun _ he => he
  intro _ s' hdone
  obtain ⟨htracked, freed, hfreed⟩ := hdone
  -- the new tables are not among the freed pages
  have hout : ∀ x ∈ spacePages s.mem p.pagetable p.sz, x ∉ s.freelist ∧ x ≠ p.trapframe := by
    intro x hx
    obtain ⟨-, -, hx, hne⟩ := hspace.spacePages_out h.size hx
    exact ⟨hx, hne⟩
  have hnew : ∀ t ∈ tables s₁.mem root, s'.mem t = s₁.mem t := by
    intro t ht
    have htp : t ∈ spacePages s₁.mem root sz := .inl ht
    have hne := (hb.space.spacePages_out hsz htp).2.2.2
    have hts : t ∈ s.freelist := (hsplit t).2 (.inl htp)
    rw [hfreed.frame t fun hp => (hout t hp).1 hts, setPage_mem_of_ne _ hne]
  have hleaf' := leaf_congr hnew
  have hreach' := reach_three_congr hnew
  have hlist : s'.freelist = freed ++ s₁.freelist := hfreed.freelist
  have hapart : ∀ x ∈ s'.freelist, x ∉ reach (child s₁.mem) 3 root := by
    intro x hx hr
    rw [hlist, mem_append, hfreed.mem_iff] at hx
    obtain hx | hx := hx
    · have hpa := (hspace.spacePages_out h.size hx).1
      have hres : x ∈ resources s₁ root := ⟨hpa, .inl hr⟩
      rw [hb.step.conserve, hns.mem_resources] at hres
      exact hres.elim (hout x hx).1 (hout x hx).2
    · exact hb.space.within.apart x hx hr
  have hfreeOk : FreeOk s'.freelist := hfreed.freeOk hb.space.within.free fun x hx =>
    ⟨(hspace.spacePages_out h.size hx).1, fun hxs => (hout x hx).1 ((hsplit x).2 (.inr hxs))⟩
  have hpages' : spacePages s'.mem root sz = spacePages s₁.mem root sz := by
    rw [spacePages, spacePages, tables_congr hnew, leafPagesIn, leafPagesIn]
    simp only [hleaf']
  refine ⟨rfl, htracked, ⟨⟨hb.space.within.space.congr hnew, hfreeOk, ?_⟩, ?_, ?_, hb.space.tfPage⟩,
    hsz, ?_, ⟨freed, s₁.freelist, hlist, hfreed.nodup, hfreed.mem_iff, ?_⟩, ?_⟩
  · intro x hx
    rw [hreach']
    exact hapart x hx
  · exact (hleaf' _).trans hb.space.tramp
  · exact (hleaf' _).trans hb.space.tfLeaf
  · intro v w hw hv
    change leaf s'.mem root v = some w at hw
    rw [hleaf'] at hw
    have hcase := hb.only v w hw
    change _ ∨ v = 67108863 ∨ v = 67108862 at hcase
    have hv' : v < 67108862 := hv
    change v < pageCount sz
    omega
  · intro x
    change _ ↔ x ∈ spacePages s'.mem root sz ∨ _
    rw [hpages']
    exact hsplit x
  · intro x hx
    rw [hspace.mem_resources_below h.size htracked, not_or, not_or] at hx
    obtain ⟨hxp, hne, hxf⟩ := hx
    rw [hfreed.frame x hxp, setPage_mem_of_ne _ hne]
    exact hframe x hxf hne

end

/-- `exec` fails and gives everything back, or replaces the image; it panics only after the new image
is complete, because of a user page above the old size. -/
theorem kexec_spec {path : List UInt8} {file : Option ExecFile} (h : p.Ok s) (hargv : ArgvOk argv) :
    Yields (kexec p path file argv) s
      (fun r s' => (r = (-1, p) ∧ ExecFailed p s s') ∨
        (r.1 = argv.length ∧ Executed p s r.2 s'))
      (fun e => e = .freewalkLeaf ∧
        ∃ v w, leaf s.mem p.pagetable v = some w ∧ v < tfVpn ∧ ¬ v < pageCount p.sz) := by
  have hspace := h.space
  have hf := hspace.within.free
  have htfout := h.trapframe_not_free
  have hsame : ExecFailed p s s := ⟨hf, fun _ => Iff.rfl, fun _ _ _ => rfl⟩
  cases file with
  | none =>
    rw [kexec, yields_pure]
    exact .inl ⟨rfl, hsame⟩
  | some file =>
    rw [kexec]
    dsimp only
    by_cases hlen : (file.readi 0 elfhdrBytes).length ≠ elfhdrBytes
    · rw [if_pos hlen, yields_pure]
      exact .inl ⟨rfl, hsame⟩
    rw [if_neg hlen]
    generalize parseElfHdr (file.readi 0 elfhdrBytes) = elf
    by_cases hmagic : elf.magic ≠ ELF_MAGIC
    · rw [if_pos hmagic, yields_pure]
      exact .inl ⟨rfl, hsame⟩
    rw [if_neg hmagic, yields_bind]
    apply Ensures.yields
    refine (procPagetable_spec hf hspace.tfPage htfout).mono ?_
    intro r s₀ hr
    obtain ⟨rfl, hrestored⟩ | ⟨root, rfl, hns⟩ := hr
    · rw [yields_pure]
      exact .inl ⟨rfl, hrestored.free, hrestored.split, fun x hx _ => hrestored.frame x hx⟩
    have himage : Image root p.trapframe 0 s₀ s₀ :=
      ⟨⟨hns.space, SpaceStep.refl hns.space.within, fun v w hw => .inr (hns.only v w hw),
        (Nat.zero_add _).le⟩, fun v hv => absurd hv (Nat.not_lt_zero v)⟩
    dsimp only
    rw [yields_bind]
    apply Ensures.yields
    refine (buildImage_built hargv hns.space.within.free himage).mono ?_
    intro r s₁ hb
    obtain ⟨sz, image⟩ := r
    cases image with
    | none =>
      dsimp only
      rw [yields_bind]
      apply Ensures.yields
      refine (Built.abandon hns hb htfout).mono ?_
      intro _ s₂ hfail
      rw [yields_pure]
      exact .inl ⟨rfl, hfail⟩
    | some sp =>
      dsimp only
      rw [yields_bind, setEntry, yields_modify, yields_bind]
      refine (hb.commit h hns _ (programName path)).mono ?_ fun _ he => he
      intro _ s₂ hdone
      rw [yields_pure]
      exact .inr ⟨rfl, hdone⟩

section Exchange

variable {p' : Proc} {s' : Phys}

/-- After a failed `exec` the address space is as before. -/
theorem ExecFailed.spaceStep (hf : ExecFailed p s s') (h : p.Ok s) :
    SpaceStep p.pagetable s s' ∧ ∀ v, leaf s'.mem p.pagetable v = leaf s.mem p.pagetable v := by
  have hspace := h.space
  have hsame : ∀ t ∈ tables s.mem p.pagetable, s'.mem t = s.mem t := by
    intro t ht
    have htp : t ∈ spacePages s.mem p.pagetable p.sz := .inl ht
    obtain ⟨-, -, hfree, hne⟩ := hspace.spacePages_out h.size htp
    exact hf.frame t hfree hne
  have hreach := reach_three_congr hsame
  have htf : p.trapframe ∈ resources s p.pagetable :=
    ⟨hspace.tfPage, .inl (mem_reach_three.2 (.inr ⟨tfVpn, _, hspace.tfLeaf, hspace.PTE2PA_tf⟩))⟩
  refine ⟨⟨⟨hspace.within.space.congr hsame, hf.free, ?_⟩, ?_, ?_⟩, leaf_congr hsame⟩
  · intro x hx
    rw [hreach]
    exact hspace.within.apart x ((hf.split x).1 hx)
  · ext x
    change _ ∧ (_ ∨ _) ↔ _ ∧ (_ ∨ _)
    rw [hreach, hf.split]
  · intro x hx
    apply hf.frame x (not_table_of_not_resource hspace.within hx).2
    rintro rfl
    exact hx htf

/-- The new address space and the free list hold the pages that the old one and the free list held. -/
theorem Executed.resources_eq (he : Executed p s p' s') (h : p.Ok s) :
    resources s' p'.pagetable = resources s p.pagetable := by
  obtain ⟨freed, rest, hlist, -, hfreed, hsplit⟩ := he.freed
  ext x
  rw [he.space.mem_resources_below he.size he.only, h.space.mem_resources_below h.size he.tracked, hlist,
    mem_append, hfreed, hsplit]
  tauto

end Exchange

end Outcome

end Xv6

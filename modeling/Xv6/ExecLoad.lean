import Xv6.ExecStages

/-!
The program image: the segments of the file, loaded one after the other, and zeros around them.
-/

namespace Xv6.Vm

open ByteMemory Ownership

def fileInode (data : List UInt8) : Inode where
  readi off n := if data.length < off ∨ 2 ^ 32 ≤ off + n then none else some ((data.drop off).take n)

def loadable (ip : Inode) : ℕ → ℕ → List Proghdr
  | 0, _ => []
  | n + 1, off =>
    match readAll ip off sizeofProghdr with
    | none => []
    | some bs =>
      let rest := loadable ip n ((off + sizeofProghdr) % 2 ^ 32)
      if (proghdr bs).type = ELF_PROG_LOAD then proghdr bs :: rest else rest

def segments (ip : Inode) : List Proghdr :=
  match readAll ip 0 sizeofElfhdr with
  | none => []
  | some bs => loadable ip (elfhdr bs).phnum (elfhdr bs).phoff

def imageSize (phs : List Proghdr) (sz : ℕ) : ℕ := phs.foldl (fun sz ph => max sz (ph.vaddr + ph.memsz)) sz

def stackTop (ip : Inode) : ℕ := PGROUNDUP (imageSize (segments ip) 0) + 2 * PGSIZE

def Proghdr.span (ph : Proghdr) : Set ℕ := Set.Ico (ph.vaddr / PGSIZE) (pages (ph.vaddr + ph.memsz))

def loadImage (data : List UInt8) (img : ℕ → UInt8) (ph : Proghdr) (a : ℕ) : UInt8 :=
  if ph.vaddr ≤ a ∧ a < ph.vaddr + ph.filesz then data.getD (ph.off + (a - ph.vaddr)) 0 else img a

section

variable {L : Layout} {A : Set Role} {M : Set ℕ} {d sz a : ℕ} {m0 m m' : PhysMem} {data : List UInt8} {ph : Proghdr}

variable {bs : List UInt8} {ip : Inode} {img : ℕ → UInt8}

theorem readi_length {off n : ℕ} (h : (fileInode data).readi off n = some bs) (hlen : bs.length = n) :
    bs = (data.drop off).take n ∧ (n = 0 ∨ off + n ≤ data.length) := by
  simp only [fileInode] at h
  split_ifs at h
  cases h
  refine ⟨rfl, ?_⟩
  rw [List.length_take, List.length_drop] at hlen
  omega

theorem chunk_bounds {n i : ℕ} (hlt : i < n) :
    0 < chunk n i ∧ chunk n i ≤ n - i ∧ chunk n i ≤ PGSIZE ∧ (chunk n i = n - i ∨ chunk n i = PGSIZE) := by
  unfold chunk
  split_ifs with hlast
  · exact ⟨by omega, le_rfl, by omega, Or.inl rfl⟩
  · exact ⟨by decide, by omega, le_rfl, Or.inr rfl⟩

theorem foldl_loadImage_congr {img img' : ℕ → UInt8} (phs : List Proghdr) (h : img a = img' a) :
    phs.foldl (loadImage data) img a = phs.foldl (loadImage data) img' a := by
  induction phs generalizing img img' with
  | nil => exact h
  | cons ph phs ih =>
    apply ih
    simp only [loadImage, h]

theorem loadLoop_bytes (hsz : sz ≤ KERNBASE) {addr offset n : ℕ} (hn : addr + n ≤ sz) (hal : addr % PGSIZE = 0)
    (hdata : data.length < 2 ^ 32) (i : ℕ) (hi : i % PGSIZE = 0) (hoff : i < n → offset + i < 2 ^ 32) (m : PhysMem)
    (h : Image L A M d sz m0 m) (he : loadLoop d addr offset n (fileInode data) i m = .ok (true, m')) :
    (i < n → offset + n ≤ data.length) ∧ ∀ a, userByte m' d a =
      if addr + i ≤ a ∧ a < addr + n then data.getD (offset + (a - addr)) 0 else userByte m d a := by
  induction hk : n - i using Nat.strong_induction_on generalizing i m with
  | _ k ih =>
    subst hk
    by_cases hlt : i < n
    · obtain ⟨hpg, hturn⟩ := loadLoop_turn h hsz hn hlt he
      rcases hturn with ⟨hb, -⟩ | ⟨bs, hread, ⟨hb, -⟩ | ⟨hlen, hrest⟩⟩
      · cases hb
      · cases hb
      rw [Nat.mod_eq_of_lt (hoff hlt)] at hread
      obtain ⟨rfl, hin⟩ := readi_length hread hlen
      obtain ⟨hpos, hle, hle', hlast⟩ := chunk_bounds hlt
      have hin : offset + i + chunk n i ≤ data.length := hin.resolve_left (by omega)
      obtain ⟨hend, hbytes⟩ := ih (n - (i + PGSIZE)) (by simp only [PGSIZE]; omega) (i + PGSIZE)
        (by simp only [PGSIZE] at hi ⊢; omega) (fun _ => by omega) _ (h.setFrame hpg hsz _) hrest rfl
      refine ⟨fun _ => by omega, fun a => ?_⟩
      rw [hbytes a, h.userByte_setFrame hsz hpg]
      by_cases hpage : a / PGSIZE = (addr + i) / PGSIZE
      · have hdown : addr + i ≤ a ∧ a < addr + i + PGSIZE ∧ a % PGSIZE = a - (addr + i) := by
          simp only [PGSIZE] at hal hi hpage ⊢
          omega
        rw [if_neg (by omega), if_pos hpage, hdown.2.2]
        by_cases hina : a < addr + i + chunk n i
        · have hj : a - (addr + i) < chunk n i := by omega
          rw [if_pos (by omega), ← Nat.zero_add (a - (addr + i)), store_apply_mem (by rw [hlen]; exact hj),
            List.getD_eq_getElem _ _ (by rw [hlen]; exact hj), List.getElem_take, List.getElem_drop,
            List.getD_eq_getElem _ _ (by omega)]
          congr 1
          omega
        · obtain ⟨hvu, hp⟩ := h.present_of_lt hsz hpg
          rw [if_neg (by omega), store_apply_not_mem (by rw [hlen]; omega), ← hdown.2.2, ← hpage,
            userByte_of_held (if_pos (by rw [hpage]; exact ⟨hvu, hp⟩))]
      · rw [if_neg hpage]
        have hiff : (addr + (i + PGSIZE) ≤ a ∧ a < addr + n) ↔ (addr + i ≤ a ∧ a < addr + n) := by
          simp only [PGSIZE] at hal hi hpage ⊢
          omega
        simp only [hiff]
    · rw [loadLoop, if_neg hlt] at he
      cases he
      exact ⟨fun h => absurd h hlt, fun a => by rw [if_neg (by omega)]⟩

theorem loadable_skip {n off : ℕ} (hread : readAll ip off sizeofProghdr = some bs)
    (ht : (proghdr bs).type ≠ ELF_PROG_LOAD) : loadable ip (n + 1) off =
      loadable ip n ((off + sizeofProghdr) % 2 ^ 32) := by
  simp only [loadable, hread, if_neg ht]

theorem loadable_load {n off : ℕ} (hread : readAll ip off sizeofProghdr = some bs)
    (ht : (proghdr bs).type = ELF_PROG_LOAD) :
    loadable ip (n + 1) off = proghdr bs :: loadable ip n ((off + sizeofProghdr) % 2 ^ 32) := by
  simp only [loadable, hread, if_pos ht]

theorem Image.loadSegments_size (n off sz : ℕ) (m : PhysMem) (h : Image L A M d sz m0 m)
    (hsz : sz < KERNBASE) (hkern : KernelPart L m d) {sz' : ℕ} (he : Vm.loadSegments L ip d n off sz m =
      .ok (some sz', m')) : sz' = imageSize (loadable ip n off) sz ∧ KernelPart L m' d := by
  induction n generalizing off sz m with
  | zero =>
    cases he
    exact ⟨rfl, hkern⟩
  | succ n ih =>
    rcases loadSegments_turn he with ⟨hr, -⟩ | ⟨bs, hread, ⟨ht, hrest⟩ | ⟨ht, hle, sz1, m1, he1, hrest⟩⟩
    · cases hr
    · rw [loadable_skip hread ht]
      exact ih _ sz m h hsz hkern hrest
    · rcases hrest with ⟨hr, -⟩ | ⟨hpos, hal, b, m2, he2, ⟨hr, -⟩ | ⟨rfl, hrest⟩⟩
      · cases hr
      · cases hr
      obtain ⟨hmax, hlt, h1⟩ := h.segment hsz he1 hpos
      have hload : (proghdr bs).vaddr + (proghdr bs).filesz ≤ sz1 := by omega
      have hkern2 := (h.allocuvm_kernel hkern he1 hpos).of_same (loadLoop_same hlt.le hload _ 0 m1 h1 he2)
      rw [loadable_load hread ht, imageSize, List.foldl_cons, ← hmax]
      exact ih _ sz1 m2 (h1.loaded hlt.le hload he2) hlt hkern2 hrest

theorem Image.loadSegments_bytes (hdata : data.length < 2 ^ 32) (n off sz : ℕ) (m : PhysMem) (h : Image L A M d sz m0 m)
    (hsz : sz < KERNBASE) {sz' : ℕ} (he : Vm.loadSegments L (fileInode data) d n off sz m = .ok (some sz', m')) :
    sz ≤ sz' ∧ (∀ ph ∈ loadable (fileInode data) n off, ph.vaddr % PGSIZE = 0 ∧ ph.filesz ≤ ph.memsz ∧
      ph.vaddr + ph.memsz ≤ sz' ∧
      (0 < ph.filesz → ph.off + ph.filesz ≤ data.length)) ∧
    ∀ a, a < KERNBASE → userByte m' d a = (loadable (fileInode data) n off).foldl (loadImage data)
    (userByte m d) a := by
  induction n generalizing off sz m with
  | zero =>
    cases he
    exact ⟨le_rfl, fun ph hph => absurd hph List.not_mem_nil, fun _ _ => rfl⟩
  | succ n ih =>
    rcases loadSegments_turn he with ⟨hr, -⟩ | ⟨bs, hread, ⟨ht, hrest⟩ | ⟨ht, hle, sz1, m1, he1, hrest⟩⟩
    · cases hr
    · rw [loadable_skip hread ht]
      exact ih _ sz m h hsz hrest
    · rcases hrest with ⟨hr, -⟩ | ⟨hpos, hal, b, m2, he2, ⟨hr, -⟩ | ⟨rfl, hrest⟩⟩
      · cases hr
      · cases hr
      have hlist := loadable_load (n := n) hread ht
      obtain ⟨hmax, hlt, h1⟩ := h.segment hsz he1 hpos
      have hload : (proghdr bs).vaddr + (proghdr bs).filesz ≤ sz1 := by omega
      have hoff : (proghdr bs).off + 0 < 2 ^ 32 := word_lt _ _
      obtain ⟨hend, hbytes⟩ := loadLoop_bytes hlt.le hload hal hdata 0 (Nat.zero_mod _) (fun _ => hoff) m1 h1 he2
      obtain ⟨hle', hall, himg⟩ := ih _ sz1 m2 (h1.loaded hlt.le hload he2) hlt hrest
      refine ⟨by omega, ?_, fun a ha => ?_⟩
      · rw [hlist]
        intro ph hph
        rcases List.mem_cons.mp hph with rfl | hph
        · exact ⟨hal, hle, by omega, hend⟩
        · exact hall ph hph
      · have hfirst : ∀ a, a < KERNBASE → userByte m2 d a = loadImage data (userByte m d) (proghdr bs) a := by
          intro a ha
          rw [hbytes a, loadImage, Nat.add_zero, (h.allocuvm_bytes rfl le_rfl he1).2 hpos a ha]
        rw [himg a ha, hlist, List.foldl_cons]
        exact foldl_loadImage_congr _ (hfirst a ha)

theorem foldl_loadImage_outside (phs : List Proghdr)
    (h : ∀ ph ∈ phs, ¬(ph.vaddr ≤ a ∧ a < ph.vaddr + ph.filesz)) : phs.foldl (loadImage data) img a = img a := by
  induction phs generalizing img with
  | nil => rfl
  | cons ph phs ih =>
    rw [List.foldl_cons, ih fun x hx => h x (List.mem_cons_of_mem _ hx), loadImage, if_neg (h ph List.mem_cons_self)]

theorem foldl_loadImage_last (phs phs' : List Proghdr) (hin : ph.vaddr ≤ a ∧ a < ph.vaddr + ph.filesz)
    (h : ∀ x ∈ phs', ¬(x.vaddr ≤ a ∧ a < x.vaddr + x.filesz)) :
    (phs ++ ph :: phs').foldl (loadImage data) img a = data.getD (ph.off + (a - ph.vaddr)) 0 := by
  rw [List.foldl_append, List.foldl_cons, foldl_loadImage_outside phs' h, loadImage, if_pos hin]

theorem Proghdr.mem_span (h : ph.vaddr ≤ a ∧ a < ph.vaddr + ph.memsz) : a / PGSIZE ∈ ph.span := by
  refine ⟨Nat.div_le_div_right h.1, ?_⟩
  rw [lt_pages]
  simp only [PGSIZE]
  omega

theorem covered_once {phs phs' : List Proghdr} (hdis : (phs ++ ph :: phs').Pairwise fun x y => Disjoint x.span y.span)
    (hle : ∀ x ∈ phs ++ ph :: phs', x.filesz ≤ x.memsz) (hin : ph.vaddr ≤ a ∧ a < ph.vaddr + ph.memsz) :
    ∀ x, x ∈ phs ∨ x ∈ phs' → ¬(x.vaddr ≤ a ∧ a < x.vaddr + x.filesz) := by
  rw [List.pairwise_append, List.pairwise_cons] at hdis
  obtain ⟨-, ⟨hafter, -⟩, hbefore⟩ := hdis
  intro x hx hcov
  have hspan : a / PGSIZE ∈ x.span := by
    have hfile : x.filesz ≤ x.memsz := by
      apply hle
      rcases hx with hx | hx
      · exact List.mem_append_left _ hx
      · exact List.mem_append_right _ (List.mem_cons_of_mem _ hx)
    exact Proghdr.mem_span ⟨hcov.1, by omega⟩
  rcases hx with hx | hx
  · exact Set.disjoint_left.mp (hbefore x hx ph List.mem_cons_self) hspan (Proghdr.mem_span hin)
  · exact Set.disjoint_left.mp (hafter x hx) (Proghdr.mem_span hin) hspan

theorem image_file {phs : List Proghdr} (hdis : phs.Pairwise fun x y => Disjoint x.span y.span)
    (hle : ∀ x ∈ phs, x.filesz ≤ x.memsz) (hph : ph ∈ phs) {j : ℕ} (hj : j < ph.filesz) :
    phs.foldl (loadImage data) img (ph.vaddr + j) = data.getD (ph.off + j) 0 := by
  have hmem := hle ph hph
  obtain ⟨phs1, phs2, rfl⟩ := List.append_of_mem hph
  rw [foldl_loadImage_last phs1 phs2 (by omega) fun x hx => covered_once hdis hle (by omega) x (Or.inr hx),
    Nat.add_sub_cancel_left]

theorem image_tail {phs : List Proghdr} (hdis : phs.Pairwise fun x y => Disjoint x.span y.span)
    (hle : ∀ x ∈ phs, x.filesz ≤ x.memsz) (hph : ph ∈ phs) {j : ℕ} (h1 : ph.filesz ≤ j) (h2 : j < ph.memsz) :
    phs.foldl (loadImage data) img (ph.vaddr + j) = img (ph.vaddr + j) := by
  obtain ⟨phs1, phs2, rfl⟩ := List.append_of_mem hph
  refine foldl_loadImage_outside _ fun x hx => ?_
  have honce := covered_once hdis hle (by omega : ph.vaddr ≤ ph.vaddr + j ∧ _) x
  rcases List.mem_append.mp hx with hx | hx
  · exact honce (Or.inl hx)
  · rcases List.mem_cons.mp hx with rfl | hx
    · omega
    · exact honce (Or.inr hx)

end

end Xv6.Vm

import Xv6.Contract
import Xv6.Param

namespace Xv6.FileTable

open Contract
open Function (update update_self update_of_ne update_apply)

inductive FileType
  | none
  | pipe
  | inode
  deriving DecidableEq

structure File where
  type : FileType
  ref : ℕ
  readable : Bool
  writable : Bool
  pipe : ℕ
  ip : ℕ
  deriving DecidableEq

structure PipeEnds where
  readopen : Bool
  writeopen : Bool
  deriving DecidableEq

structure Ftable where
  file : Fin NFILE → File
  pipe : ℕ → Option PipeEnds
  allocated : ℕ → ℕ
  freed : ℕ → ℕ

def setFile (t : Ftable) (f : Fin NFILE) (x : File) : Ftable := { t with file := update t.file f x }

def filealloc (t : Ftable) : Option (Fin NFILE × Ftable) :=
  match (List.finRange NFILE).find? (fun f => (t.file f).ref = 0) with
  | some f => some (f, setFile t f { t.file f with ref := 1 })
  | none => none

def filedup (t : Ftable) (f : Fin NFILE) : Outcome Ftable :=
  if (t.file f).ref < 1 then .error "filedup" else .ok (setFile t f { t.file f with ref := (t.file f).ref + 1 })

def PipeEnds.close (q : PipeEnds) (writable : Bool) : PipeEnds :=
  if writable then { q with writeopen := false } else { q with readopen := false }

def kfree (t : Ftable) (page : ℕ) : Ftable :=
  { t with pipe := update t.pipe page none
           freed := update t.freed page (t.freed page + 1) }

def pipeclose (t : Ftable) (page : ℕ) (writable : Bool) : Outcome Ftable :=
  match t.pipe page with
  | none => .error "pipe used after kfree"
  | some q =>
    if (q.close writable).readopen = false ∧ (q.close writable).writeopen = false then .ok (kfree t page)
    else .ok { t with pipe := update t.pipe page (some (q.close writable)) }

def fileclose (t : Ftable) (f : Fin NFILE) : Outcome (Option ℕ × Ftable) :=
  let ff := t.file f
  if ff.ref < 1 then .error "fileclose"
  else if 0 < ff.ref - 1 then .ok (none, setFile t f { ff with ref := ff.ref - 1 })
  else
    let t := setFile t f { ff with ref := 0, type := .none }
    match ff.type with
    | .pipe => do
      let t ← pipeclose t ff.pipe ff.writable
      .ok (none, t)
    | .inode => .ok (some ff.ip, t)
    | .none => .ok (none, t)

def setPipe (t : Ftable) (f : Fin NFILE) (page : ℕ) (writable : Bool) : Ftable :=
  setFile t f { t.file f with type := .pipe, readable := !writable, writable := writable, pipe := page }

def newPipe (t : Ftable) (page : ℕ) : Ftable :=
  { t with pipe := update t.pipe page (some { readopen := true, writeopen := true })
           allocated := update t.allocated page (t.allocated page + 1) }

def pipealloc (t : Ftable) (page : Option ℕ) : Outcome (Option (Fin NFILE × Fin NFILE) × Ftable) :=
  match filealloc t with
  | none => .ok (none, t)
  | some (f0, t) =>
    match filealloc t with
    | none => do
      let (_, t) ← fileclose t f0
      .ok (none, t)
    | some (f1, t) =>
      match page with
      | none => do
        let (_, t) ← fileclose t f0
        let (_, t) ← fileclose t f1
        .ok (none, t)
      | some page => .ok (some (f0, f1), setPipe (setPipe (newPipe t page) f0 page false) f1 page true)

def IsEnd (t : Ftable) (page : ℕ) (writable : Bool) (f : Fin NFILE) : Prop :=
  (t.file f).type = .pipe ∧ (t.file f).pipe = page ∧ (t.file f).writable = writable

def PipeEnds.open (q : PipeEnds) (writable : Bool) : Bool := if writable then q.writeopen else q.readopen

structure Table (t : Ftable) : Prop where
  closed : ∀ f, (t.file f).ref = 0 → (t.file f).type = .none
  unique : ∀ page w f g, IsEnd t page w f → IsEnd t page w g → f = g
  flags : ∀ page q, t.pipe page = some q → ∀ w, q.open w = true ↔ ∃ f, IsEnd t page w f
  alive : ∀ page q, t.pipe page = some q → ∃ w, q.open w = true
  gone : ∀ page, t.pipe page = none → ∀ w f, ¬ IsEnd t page w f
  pages : ∀ page, t.allocated page = t.freed page + (t.pipe page).toList.length

variable {t u : Ftable} {f : Fin NFILE}

theorem setFile_file (t : Ftable) (f g : Fin NFILE) (x : File) :
    (setFile t f x).file g = if g = f then x else t.file g := by
  simp [setFile, update_apply]

theorem Table.setFile {x : File} (h : Table t) (ht : x.type = .pipe ↔ (t.file f).type = .pipe)
    (hp : x.type = .pipe → x.pipe = (t.file f).pipe ∧ x.writable = (t.file f).writable)
    (hr : x.ref = 0 → x.type = .none) : Table (setFile t f x) := by
  have he : ∀ page w g, IsEnd (FileTable.setFile t f x) page w g ↔ IsEnd t page w g := by
    intro page w g
    simp only [IsEnd, setFile_file]
    split_ifs with hg
    · subst hg
      rw [ht]
      refine and_congr_right fun hx => ?_
      rw [(hp (ht.mpr hx)).1, (hp (ht.mpr hx)).2]
    · rfl
  refine ⟨?_, ?_, ?_, h.alive, ?_, h.pages⟩
  · intro g
    rw [setFile_file]
    split_ifs
    · exact hr
    · exact h.closed g
  · intro page w g k hg hk
    exact h.unique page w g k ((he page w g).mp hg) ((he page w k).mp hk)
  · intro page q hq w
    simp only [he]
    exact h.flags page q hq w
  · intro page hpage w g hg
    exact h.gone page hpage w g ((he page w g).mp hg)

theorem Table.setRef {n : ℕ} (h : Table t) (hn : n ≠ 0) : Table (FileTable.setFile t f { t.file f with ref := n }) :=
  h.setFile Iff.rfl (fun _ => ⟨rfl, rfl⟩) (fun hz => absurd hz hn)

theorem filealloc_spec (h : Table t) (hf : filealloc t = some (f, u)) :
    (t.file f).ref = 0 ∧ u = setFile t f { t.file f with ref := 1 } ∧ Table u := by
  simp only [filealloc] at hf
  split at hf
  · next g hg =>
    cases hf
    have hz : (t.file f).ref = 0 := by simpa using List.find?_some hg
    exact ⟨hz, rfl, h.setRef one_ne_zero⟩
  · cases hf

theorem filedup_spec (h : Table t) (hf : 0 < (t.file f).ref) :
    filedup t f = .ok (setFile t f { t.file f with ref := (t.file f).ref + 1 }) ∧
      Table (setFile t f { t.file f with ref := (t.file f).ref + 1 }) := by
  refine ⟨?_, h.setRef (Nat.succ_ne_zero _)⟩
  rw [filedup, if_neg (by omega)]

theorem open_close (q : PipeEnds) (w v : Bool) : (q.close w).open v = (q.open v && w != v) := by
  cases w <;> cases v <;> simp [PipeEnds.close, PipeEnds.open]

theorem isEnd_cleared {page : ℕ} {w : Bool} {g : Fin NFILE} :
    IsEnd (setFile t f { t.file f with ref := 0, type := .none }) page w g ↔ g ≠ f ∧ IsEnd t page w g := by
  simp only [IsEnd, setFile_file]
  split_ifs with hg
  · simp [hg]
  · simp [hg]

theorem pipeclose_spec (h : Table t) {page : ℕ} {w : Bool} (hf : IsEnd t page w f)
    (hu : u = setFile t f { t.file f with ref := 0, type := .none }) :
    ∃ v, pipeclose u page w = .ok v ∧ Table v ∧ v.file = u.file := by
  obtain ⟨q, hq⟩ : ∃ q, t.pipe page = some q := by
    cases hq : t.pipe page with
    | none => exact absurd hf (h.gone page hq w f)
    | some q => exact ⟨q, rfl⟩
  have hclosed : ∀ g, (u.file g).ref = 0 → (u.file g).type = .none := by
    intro g
    rw [hu, setFile_file]
    split_ifs
    · exact fun _ => rfl
    · exact h.closed g
  have hend : ∀ pg x g, IsEnd u pg x g ↔ g ≠ f ∧ IsEnd t pg x g := by
    intro pg x g
    rw [hu]
    exact isEnd_cleared
  have hunique : ∀ pg x g k, IsEnd u pg x g → IsEnd u pg x k → g = k := fun pg x g k hg hk =>
    h.unique pg x g k ((hend pg x g).mp hg).2 ((hend pg x k).mp hk).2
  have hother : ∀ pg x g, pg ≠ page → (IsEnd u pg x g ↔ IsEnd t pg x g) := by
    intro pg x g hpg
    rw [hend]
    refine ⟨fun hg => hg.2, fun hg => ⟨?_, hg⟩⟩
    rintro rfl
    exact hpg (hg.2.1.symm.trans hf.2.1)
  have hflags : ∀ x, (q.close w).open x = true ↔ ∃ g, IsEnd u page x g := by
    intro x
    rw [open_close, Bool.and_eq_true, h.flags page q hq x]
    constructor
    · rintro ⟨⟨g, hg⟩, hx⟩
      refine ⟨g, (hend page x g).mpr ⟨?_, hg⟩⟩
      rintro rfl
      simp [hf.2.2.symm.trans hg.2.2] at hx
    · rintro ⟨g, hg⟩
      obtain ⟨hgf, hg⟩ := (hend page x g).mp hg
      refine ⟨⟨g, hg⟩, ?_⟩
      rw [bne_iff_ne]
      rintro rfl
      exact hgf (h.unique page w g f hg hf)
  have hpipe : u.pipe = t.pipe := by rw [hu]; rfl
  have hpages : ∀ pg, u.allocated pg = u.freed pg + (u.pipe pg).toList.length := by
    rw [hu]
    exact h.pages
  simp only [pipeclose, hpipe, hq]
  split_ifs with hc
  · refine ⟨_, rfl, ⟨hclosed, hunique, ?_, ?_, ?_, ?_⟩, rfl⟩
    · intro pg r hr x
      by_cases hpg : pg = page
      · simp [kfree, hpg] at hr
      · simp only [kfree, update_of_ne hpg, hpipe] at hr
        rw [h.flags pg r hr x]
        exact exists_congr fun g => (hother pg x g hpg).symm
    · intro pg r hr
      by_cases hpg : pg = page
      · simp [kfree, hpg] at hr
      · simp only [kfree, update_of_ne hpg, hpipe] at hr
        exact h.alive pg r hr
    · intro pg hr x g hg
      by_cases hpg : pg = page
      · subst hpg
        have := (hflags x).mpr ⟨g, hg⟩
        cases x <;> simp [PipeEnds.open, hc.1, hc.2] at this
      · simp only [kfree, update_of_ne hpg, hpipe] at hr
        exact h.gone pg hr x g ((hother pg x g hpg).mp hg)
    · intro pg
      by_cases hpg : pg = page
      · subst hpg
        have := hpages pg
        simp [kfree, hpipe, hq] at this ⊢
        exact this
      · simpa [kfree, update_of_ne hpg] using hpages pg
  · refine ⟨_, rfl, ⟨hclosed, hunique, ?_, ?_, ?_, ?_⟩, rfl⟩
    · intro pg r hr x
      by_cases hpg : pg = page
      · subst hpg
        simp only [update_self, Option.some.injEq] at hr
        rw [← hr]
        exact hflags x
      · simp only [update_of_ne hpg] at hr
        rw [h.flags pg r hr x]
        exact exists_congr fun g => (hother pg x g hpg).symm
    · intro pg r hr
      by_cases hpg : pg = page
      · subst hpg
        simp only [update_self, Option.some.injEq] at hr
        rw [← hr]
        by_contra hn
        push Not at hn
        exact hc ⟨by simpa [PipeEnds.open] using hn false, by simpa [PipeEnds.open] using hn true⟩
      · simp only [update_of_ne hpg] at hr
        exact h.alive pg r hr
    · intro pg hr x g hg
      by_cases hpg : pg = page
      · subst hpg
        simp at hr
      · simp only [update_of_ne hpg] at hr
        exact h.gone pg hr x g ((hother pg x g hpg).mp hg)
    · intro pg
      by_cases hpg : pg = page
      · subst hpg
        have := hpages pg
        simp [hpipe, hq] at this ⊢
        exact this
      · have := hpages pg
        simp only [hpipe, update_of_ne hpg] at this ⊢
        exact this

theorem fileclose_spec (h : Table t) (hf : 0 < (t.file f).ref) :
    ∃ r u, fileclose t f = .ok (r, u) ∧ Table u ∧ ((t.file f).ref = 1 ∨ r = none) ∧
      ∀ g, (u.file g).ref = if g = f then (t.file f).ref - 1 else (t.file g).ref := by
  simp only [fileclose]
  rw [if_neg (by omega)]
  have href : ∀ x : File, ∀ g, ((setFile t f x).file g).ref = if g = f then x.ref else (t.file g).ref := by
    intro x g
    rw [setFile_file]
    split_ifs <;> rfl
  split_ifs with hr
  · exact ⟨none, _, rfl, h.setRef hr.ne', Or.inr rfl, href _⟩
  · have hone : (t.file f).ref = 1 := by omega
    have hclear : ∀ g, ((setFile t f { t.file f with ref := 0, type := .none }).file g).ref =
        if g = f then (t.file f).ref - 1 else (t.file g).ref := by
      intro g
      rw [href, hone]
    cases ht : (t.file f).type with
    | none => exact ⟨none, _, rfl, h.setFile (by simp [ht]) (by simp) (fun _ => rfl), Or.inl hone, hclear⟩
    | pipe =>
      obtain ⟨v, hv, htable, hfile⟩ := pipeclose_spec h ⟨ht, rfl, rfl⟩ (rfl : setFile t f _ = _)
      refine ⟨none, v, ?_, htable, Or.inl hone, ?_⟩
      · simp only [hv, Outcome.ok_bind]
      · intro g
        rw [hfile]
        exact hclear g
    | inode =>
      exact ⟨some (t.file f).ip, _, rfl, h.setFile (by simp [ht]) (by simp) (fun _ => rfl), Or.inl hone, hclear⟩

theorem newPipe_table {page : ℕ} {f0 f1 : Fin NFILE} (h : Table t) (hpage : t.pipe page = none) (hne : f0 ≠ f1)
    (h0 : (t.file f0).ref = 1 ∧ (t.file f0).type = .none) (h1 : (t.file f1).ref = 1 ∧ (t.file f1).type = .none) :
    Table (setPipe (setPipe (newPipe t page) f0 page false) f1 page true) := by
  have hend : ∀ pg x g, IsEnd (setPipe (setPipe (newPipe t page) f0 page false) f1 page true) pg x g ↔
      (pg = page ∧ g = if x then f1 else f0) ∨ IsEnd t pg x g := by
    intro pg x g
    simp only [IsEnd, setPipe, setFile_file, newPipe]
    by_cases hg1 : g = f1
    · subst hg1
      cases x <;> simp [hne.symm, h1.2, @eq_comm _ page pg]
    · by_cases hg0 : g = f0
      · subst hg0
        cases x <;> simp [hne, h0.2, @eq_comm _ page pg]
      · cases x <;> simp [hg0, hg1]
  have hnew : ∀ x g, ¬ IsEnd t page x g := h.gone page hpage
  have hold : ∀ pg x g, pg ≠ page →
      (IsEnd (setPipe (setPipe (newPipe t page) f0 page false) f1 page true) pg x g ↔ IsEnd t pg x g) := by
    intro pg x g hpg
    simp [hend, hpg]
  refine ⟨?_, ?_, ?_, ?_, ?_, ?_⟩
  · intro g hg
    simp only [setPipe, setFile_file, newPipe] at hg ⊢
    by_cases hg1 : g = f1
    · simp [hg1, hne.symm, h1.1] at hg
    · by_cases hg0 : g = f0
      · simp [hg0, hne, h0.1] at hg
      · simp only [hg1, hg0, if_false] at hg ⊢
        exact h.closed g hg
  · intro pg x g k hg hk
    by_cases hpg : pg = page
    · subst hpg
      simp only [hend, hnew, or_false, true_and] at hg hk
      rw [hg, hk]
    · rw [hold pg x _ hpg] at hg hk
      exact h.unique pg x g k hg hk
  · intro pg q hq x
    by_cases hpg : pg = page
    · subst hpg
      simp only [setPipe, setFile, newPipe, update_self, Option.some.injEq] at hq
      subst hq
      simp only [hend, hnew, or_false, true_and, exists_eq, iff_true]
      cases x <;> rfl
    · simp only [setPipe, setFile, newPipe, update_of_ne hpg] at hq
      rw [h.flags pg q hq x]
      exact exists_congr fun g => (hold pg x g hpg).symm
  · intro pg q hq
    by_cases hpg : pg = page
    · subst hpg
      simp only [setPipe, setFile, newPipe, update_self, Option.some.injEq] at hq
      subst hq
      exact ⟨true, rfl⟩
    · simp only [setPipe, setFile, newPipe, update_of_ne hpg] at hq
      exact h.alive pg q hq
  · intro pg hq x g hg
    by_cases hpg : pg = page
    · subst hpg
      simp [setPipe, setFile, newPipe] at hq
    · simp only [setPipe, setFile, newPipe, update_of_ne hpg] at hq
      exact h.gone pg hq x g ((hold pg x g hpg).mp hg)
  · intro pg
    have := h.pages pg
    by_cases hpg : pg = page
    · subst hpg
      simp [hpage] at this
      simp [setPipe, setFile, newPipe, this]
    · simpa [setPipe, setFile, newPipe, update_of_ne hpg] using this

theorem pipealloc_spec (h : Table t) {page : Option ℕ} (hpage : ∀ pg, page = some pg → t.pipe pg = none) :
    ∃ r u, pipealloc t page = .ok (r, u) ∧ Table u ∧
      match r with
      | none => ∀ g, (u.file g).ref = (t.file g).ref
      | some (f0, f1) => f0 ≠ f1 ∧ (t.file f0).ref = 0 ∧ (t.file f1).ref = 0 ∧
          ∀ g, (u.file g).ref = if g = f0 ∨ g = f1 then 1 else (t.file g).ref := by
  simp only [pipealloc]
  cases h0 : filealloc t with
  | none => exact ⟨none, t, rfl, h, fun _ => rfl⟩
  | some q0 =>
    obtain ⟨f0, t0⟩ := q0
    obtain ⟨hz0, rfl, ht0⟩ := filealloc_spec h h0
    simp only
    have href0 : ∀ g, ((setFile t f0 { t.file f0 with ref := 1 }).file g).ref =
        if g = f0 then 1 else (t.file g).ref := by
      intro g
      rw [setFile_file]
      split_ifs <;> rfl
    cases h1 : filealloc (setFile t f0 { t.file f0 with ref := 1 }) with
    | none =>
      obtain ⟨r, u, hc, htu, -, hru⟩ := fileclose_spec (f := f0) ht0 (by simp [href0])
      refine ⟨none, u, by simp [hc], htu, fun g => ?_⟩
      rw [hru, href0, href0]
      split_ifs with hg <;> simp_all
    | some q1 =>
      obtain ⟨f1, t1⟩ := q1
      obtain ⟨hz1, rfl, ht1⟩ := filealloc_spec ht0 h1
      have hne : f0 ≠ f1 := by
        rintro rfl
        simp [href0] at hz1
      rw [href0, if_neg hne.symm] at hz1
      have href1 : ∀ g, ((setFile (setFile t f0 { t.file f0 with ref := 1 }) f1
          { (setFile t f0 { t.file f0 with ref := 1 }).file f1 with ref := 1 }).file g).ref =
          if g = f0 ∨ g = f1 then 1 else (t.file g).ref := by
        intro g
        rw [setFile_file]
        split_ifs with hg1 hg hg
        · rfl
        · simp_all
        · rw [href0, if_pos (by tauto)]
        · rw [href0, if_neg (by tauto)]
      simp only
      generalize hv : setFile (setFile t f0 { t.file f0 with ref := 1 }) f1
          { (setFile t f0 { t.file f0 with ref := 1 }).file f1 with ref := 1 } = v at ht1 href1 ⊢
      cases page with
      | none =>
        obtain ⟨r, u, hc, htu, -, hru⟩ := fileclose_spec (f := f0) ht1 (by simp [href1])
        obtain ⟨r', u', hc', htu', -, hru'⟩ := fileclose_spec (f := f1) htu (by simp [hru, hne.symm, href1])
        refine ⟨none, u', by simp [hc, hc'], htu', fun g => ?_⟩
        rw [hru', hru, hru, href1, href1, href1]
        split_ifs <;> simp_all
      | some pg =>
        have hty0 : (v.file f0).type = .none := by
          rw [← hv, setFile_file, if_neg hne, setFile_file, if_pos rfl]
          exact h.closed f0 hz0
        have hty1 : (v.file f1).type = .none := by
          rw [← hv, setFile_file, if_pos rfl]
          show ((setFile t f0 _).file f1).type = .none
          rw [setFile_file, if_neg hne.symm]
          exact h.closed f1 hz1
        refine ⟨some (f0, f1), _, rfl, ?_, hne, hz0, hz1, ?_⟩
        · apply newPipe_table ht1 _ hne
          · exact ⟨by simp [href1], hty0⟩
          · exact ⟨by simp [href1], hty1⟩
          · rw [← hv]
            exact hpage pg rfl
        · intro g
          rw [← href1 g]
          simp only [setPipe, setFile_file, newPipe]
          split_ifs <;> simp_all

end Xv6.FileTable

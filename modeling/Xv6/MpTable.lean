import Xv6.Fueled
import Xv6.ExecPrepare

/-!
`mp.c`: the search for the MP configuration table and the loop over its entries.
-/

namespace Xv6.MpTable

open Fueled Vm

structure KernelSpace where
  byte : ℕ → Option UInt8
  low : ∀ a, a < KERNBASE → byte a = none

theorem setupkvm_low {L : Layout} {A : Set Role} {M : Set ℕ} {m m' : PhysMem} {d a : ℕ}
    (hI : Inv L A M m) (he : setupkvm L m = .ok (some d, m')) (ha : a < KERNBASE) : translate m' d a = none := by
  rcases setupkvm_spec hI with ⟨m1, he', -⟩ | ⟨d', m1, he', -, -, -, htab, -⟩
  · cases he.symm.trans he'
  · cases he.symm.trans he'
    have hpd : PDX a < 512 := by
      simp only [PDX, KERNBASE] at *
      omega
    have hno : ¬present (pde m' d (PDX a)) := by
      rw [htab _ (by simp only [NPDENTRIES]; omega), kernelTables, Finset.mem_union, Finset.mem_Ico, Finset.mem_Ico]
      omega
    rw [Vm.translate, walkpgdir_absent hno]

def kpgdirSpace {L : Layout} {A : Set Role} {M : Set ℕ} {m m' : PhysMem} {d : ℕ}
    (hI : Inv L A M m) (he : setupkvm L m = .ok (some d, m')) : KernelSpace where
  byte a := (translate m' d a).map fun p => m'.mem p (a % PGSIZE)
  low _ ha := by rw [setupkvm_low hI he ha, Option.map_none]

variable (sp : KernelSpace)

def read (a : ℕ) : Res String UInt8 :=
  match sp.byte (a % 2 ^ 32) with
  | none => .stop "trap"
  | some b => .ok b

def readShort (a : ℕ) : Res String ℕ := do
  let b0 ← read sp a
  let b1 ← read sp (a + 1)
  .ok (b0.toNat + 256 * b1.toNat)

def readWord (a : ℕ) : Res String ℕ := do
  let w0 ← readShort sp a
  let w1 ← readShort sp (a + 2)
  .ok (w0 + 65536 * w1)

def P2V (a : ℕ) : ℕ := (a + KERNBASE) % 2 ^ 32

def sum : ℕ → ℕ → Res String UInt8
  | 0, _ => .ok 0
  | len + 1, addr => do
    let b ← read sp addr
    let r ← sum len (addr + 1)
    .ok (b + r)

def memcmp : ℕ → List UInt8 → Res String Bool
  | _, [] => .ok true
  | a, c :: cs => do
    let b ← read sp a
    if b ≠ c then .ok false else memcmp (a + 1) cs

def sizeofMp : ℕ := 16
def sizeofMpconf : ℕ := 44
def sizeofMpproc : ℕ := 20
def sizeofMpioapic : ℕ := 8

def mpSignature : List UInt8 := [95, 77, 80, 95]

def confSignature : List UInt8 := [80, 67, 77, 80]

def searchLoop : ℕ → ℕ → Res String (Option ℕ)
  | 0, _ => .ok none
  | n + 1, p => do
    if ← memcmp sp p mpSignature then
      if (← sum sp sizeofMp p) = 0 then .ok (some p) else searchLoop n (p + sizeofMp)
    else searchLoop n (p + sizeofMp)

-- No range that `mpsearch` asks for ends beyond the address space, so `p < e` counts the steps.
def mpsearch1 (a len : ℕ) : Res String (Option ℕ) := searchLoop sp (len / sizeofMp) (P2V a)

def bda : ℕ := P2V 0x400

def mpsearchLow : Res String (Option ℕ) := do
  let ebda ← readShort sp (bda + 0x0E)
  if ebda * 16 ≠ 0 then mpsearch1 sp (ebda * 16) 1024
  else
    let kb ← readShort sp (bda + 0x13)
    mpsearch1 sp ((kb * 1024 + 2 ^ 32 - 1024) % 2 ^ 32) 1024

def mpsearch : Res String (Option ℕ) := do
  match ← mpsearchLow sp with
  | some mp => .ok (some mp)
  | none => mpsearch1 sp 0xF0000 0x10000

def mpconfig : Res String (Option (ℕ × ℕ)) := do
  match ← mpsearch sp with
  | none => .ok none
  | some mp =>
    let physaddr ← readWord sp (mp + 4)
    if physaddr = 0 then .ok none
    else
      let conf := P2V physaddr
      if ← memcmp sp conf confSignature then
        let version ← read sp (conf + 6)
        if version ≠ 1 ∧ version ≠ 4 then .ok none
        else
          let length ← readShort sp (conf + 4)
          if (← sum sp length conf) ≠ 0 then .ok none else .ok (some (mp, conf))
      else .ok none

def NCPU : ℕ := 8

structure Found where
  cpus : List UInt8
  ioapicid : UInt8
  ismp : Bool
  deriving DecidableEq

def entryLoop (e : ℕ) : ℕ → ℕ → Found → Res String Found
  | 0, _, _ => .more
  | fuel + 1, p, f =>
    if p < e then do
      let type ← read sp p
      if type = 0 then
        if f.cpus.length < NCPU then
          let apicid ← read sp (p + 1)
          entryLoop e fuel ((p + sizeofMpproc) % 2 ^ 32) { f with cpus := f.cpus ++ [apicid] }
        else entryLoop e fuel ((p + sizeofMpproc) % 2 ^ 32) f
      else if type = 2 then
        let apicno ← read sp (p + 1)
        entryLoop e fuel ((p + sizeofMpioapic) % 2 ^ 32) { f with ioapicid := apicno }
      else if type = 1 ∨ type = 3 ∨ type = 4 then entryLoop e fuel ((p + 8) % 2 ^ 32) f
      else entryLoop e fuel p { f with ismp := false }
    else .ok f

structure Machine where
  found : Found
  lapic : ℕ
  imcr : Bool
  deriving DecidableEq

def mpinit (fuel : ℕ) : Res String Machine := do
  match ← mpconfig sp with
  | none => .stop "Expect to run on an SMP"
  | some (mp, conf) =>
    let lapic ← readWord sp (conf + 36)
    let length ← readShort sp (conf + 4)
    let f ← entryLoop sp ((conf + length) % 2 ^ 32) fuel ((conf + sizeofMpconf) % 2 ^ 32) ⟨[], 0, true⟩
    if f.ismp = false then .stop "Didn't find a suitable machine"
    else
      let imcrp ← read sp (mp + 12)
      .ok ⟨f, lapic, imcrp ≠ 0⟩

def entrySize (type : UInt8) : Option ℕ :=
  if type = 0 then some sizeofMpproc else if type ≤ 4 then some sizeofMpioapic else none

inductive Entries (e : ℕ) : ℕ → List (ℕ × UInt8) → Prop
  | nil {p : ℕ} (h : e ≤ p) : Entries e p []
  | cons {p size : ℕ} {type : UInt8} {es : List (ℕ × UInt8)} (h : p < e) (ht : read sp p = .ok type)
      (hs : entrySize type = some size) (hes : Entries e ((p + size) % 2 ^ 32) es) : Entries e p ((p, type) :: es)

inductive Reach (e p0 : ℕ) : ℕ → Prop
  | start : Reach e p0 p0
  | next {p size : ℕ} {type : UInt8} (hp : Reach e p0 p) (h : p < e) (ht : read sp p = .ok type)
      (hs : entrySize type = some size) : Reach e p0 ((p + size) % 2 ^ 32)

def AllKnown (e p0 : ℕ) : Prop :=
  ∀ p, Reach sp e p0 p → p < e → ∃ type size, read sp p = .ok type ∧ entrySize type = some size

def ofType (type : UInt8) (es : List (ℕ × UInt8)) : List ℕ := (es.filter fun x => x.2 = type).map Prod.fst

def ids (ps : List ℕ) : List (Option UInt8) := ps.map fun p => sp.byte ((p + 1) % 2 ^ 32)

variable {sp} {e p p0 size fuel : ℕ} {type : UInt8} {f g : Found} {es : List (ℕ × UInt8)}

variable {a : ℕ} {m : String} {mp conf : ℕ}

theorem read_eq_ok {b : UInt8} : read sp a = .ok b ↔ sp.byte (a % 2 ^ 32) = some b := by
  rw [read]
  cases sp.byte (a % 2 ^ 32) <;> simp

theorem read_eq_stop (h : read sp a = .stop m) : m = "trap" := by
  rw [read] at h
  cases hb : sp.byte (a % 2 ^ 32) with
  | none =>
    rw [hb] at h
    cases h
    rfl
  | some b =>
    rw [hb] at h
    cases h

theorem readShort_eq_stop (h : readShort sp a = .stop m) : m = "trap" := by
  rcases bind_eq_stop.mp h with h | ⟨b, -, h⟩
  · exact read_eq_stop h
  · rcases bind_eq_stop.mp h with h | ⟨b', -, h⟩
    · exact read_eq_stop h
    · cases h

theorem readWord_eq_stop (h : readWord sp a = .stop m) : m = "trap" := by
  rcases bind_eq_stop.mp h with h | ⟨w, -, h⟩
  · exact readShort_eq_stop h
  · rcases bind_eq_stop.mp h with h | ⟨w', -, h⟩
    · exact readShort_eq_stop h
    · cases h

theorem entrySize_pos (h : entrySize type = some size) : 0 < size ∧ size ≤ sizeofMpproc := by
  simp only [entrySize] at h
  split_ifs at h <;> cases h <;> decide

theorem entries_of_allKnown (h : AllKnown sp e p0) (he : e ≤ 2 ^ 32) (hp : Reach sp e p0 p) (hlt : p < 2 ^ 32) :
    ∃ es, Entries sp e p es := by
  induction hk : e - p using Nat.strong_induction_on generalizing p with
  | _ k ih =>
    by_cases hpe : p < e
    · obtain ⟨type, size, ht, hs⟩ := h p hp hpe
      obtain ⟨hpos, hle⟩ := entrySize_pos hs
      have hnext := hp.next hpe ht hs
      simp only [sizeofMpproc] at hle
      by_cases hwrap : p + size < 2 ^ 32
      · rw [Nat.mod_eq_of_lt hwrap] at hnext
        obtain ⟨es, hes⟩ := ih (e - (p + size)) (by omega) hnext hwrap rfl
        rw [← Nat.mod_eq_of_lt hwrap] at hes
        exact ⟨_, .cons hpe ht hs hes⟩
      · obtain ⟨type', size', ht', -⟩ := h _ hnext (by omega)
        have hlow := sp.low ((p + size) % 2 ^ 32 % 2 ^ 32) (by simp only [KERNBASE]; omega)
        rw [read_eq_ok, hlow] at ht'
        cases ht'
    · exact ⟨[], .nil (by omega)⟩

theorem Reach.first {q : ℕ} (h : Reach sp e p q) : q = p ∨ ∃ type size, p < e ∧ read sp p = .ok type ∧
    entrySize type = some size ∧ Reach sp e ((p + size) % 2 ^ 32) q := by
  induction h with
  | start => exact Or.inl rfl
  | next _ hlt ht hs ih =>
    right
    rcases ih with rfl | ⟨type, size, hp, ht', hs', hr⟩
    · exact ⟨_, _, hlt, ht, hs, .start⟩
    · exact ⟨type, size, hp, ht', hs', hr.next hlt ht hs⟩

theorem Entries.allKnown (h : Entries sp e p es) : AllKnown sp e p := by
  induction h with
  | nil hle =>
    intro q hq hlt
    rcases hq.first with rfl | ⟨_, _, hp, -⟩ <;> omega
  | cons hp ht hs _ ih =>
    intro q hq hlt
    rcases hq.first with rfl | ⟨_, _, -, ht', hs', hr⟩
    · exact ⟨_, _, ht, hs⟩
    · cases ht.symm.trans ht'
      cases hs.symm.trans hs'
      exact ih q hr hlt

theorem Entries.unique {es' : List (ℕ × UInt8)} (h : Entries sp e p es) (h' : Entries sp e p es') : es = es' := by
  induction h generalizing es' with
  | nil hle =>
    cases h' with
    | nil => rfl
    | cons hlt => omega
  | cons hp ht hs _ ih =>
    cases h' with
    | nil hle => omega
    | cons _ ht' hs' hes' =>
      cases ht.symm.trans ht'
      cases hs.symm.trans hs'
      rw [ih hes']

def note (sp : KernelSpace) (p : ℕ) (type : UInt8) (f : Found) : Res String Found :=
  if type = 0 then
    if f.cpus.length < NCPU then do
      let apicid ← read sp (p + 1)
      .ok { f with cpus := f.cpus ++ [apicid] }
    else .ok f
  else if type = 2 then do
    let apicno ← read sp (p + 1)
    .ok { f with ioapicid := apicno }
  else .ok f

theorem entryLoop_done (h : e ≤ p) : entryLoop sp e (fuel + 1) p f = .ok f := by
  rw [entryLoop, if_neg (by omega)]

theorem entryLoop_known (h : p < e) (ht : read sp p = .ok type) (hs : entrySize type = some size) :
    entryLoop sp e (fuel + 1) p f = note sp p type f >>= entryLoop sp e fuel ((p + size) % 2 ^ 32) := by
  rw [entryLoop, if_pos h, ht, ok_bind, note]
  simp only [entrySize] at hs
  by_cases h0 : type = 0
  · rw [if_pos h0] at hs
    cases hs
    rw [if_pos h0, if_pos h0]
    split_ifs
    · cases read sp (p + 1) <;> rfl
    · rfl
  · rw [if_neg h0] at hs
    split_ifs at hs with h4
    cases hs
    rw [if_neg h0, if_neg h0]
    by_cases h2 : type = 2
    · rw [if_pos h2, if_pos h2]
      cases read sp (p + 1) <;> rfl
    · have hrest : type = 1 ∨ type = 3 ∨ type = 4 := by
        rw [UInt8.le_iff_toNat_le] at h4
        simp only [← UInt8.toNat_inj] at h0 h2 ⊢
        simp only [UInt8.reduceToNat] at h0 h2 h4 ⊢
        omega
      rw [if_neg h2, if_neg h2, if_pos hrest]
      rfl

theorem entryLoop_unknown (h : p < e) (ht : read sp p = .ok type) (hs : entrySize type = none) :
    entryLoop sp e fuel p f = .more := by
  induction fuel generalizing f with
  | zero => rfl
  | succ fuel ih =>
    have hno : type ≠ 0 ∧ ¬type ≤ 4 := by
      simp only [entrySize] at hs
      split_ifs at hs with h0 h4
      exact ⟨h0, h4⟩
    have hrest : type ≠ 2 ∧ ¬(type = 1 ∨ type = 3 ∨ type = 4) := by
      refine ⟨?_, ?_⟩
      · rintro rfl
        exact hno.2 (by decide)
      · rintro (rfl | rfl | rfl) <;> exact hno.2 (by decide)
    rw [entryLoop, if_pos h, ht, ok_bind, if_neg hno.1, if_neg hrest.1, if_neg hrest.2, ih]

theorem ids_ofType_single {k : UInt8} : none ∉ ids sp (ofType k [(p, type)]) ↔
    (type = k → ∃ b, read sp (p + 1) = .ok b) := by
  by_cases hk : type = k
  · have htype : ofType k [(p, type)] = [p] := by simp [ofType, hk]
    rw [htype, ids, List.map_singleton, List.mem_singleton]
    simp only [hk, true_implies, read_eq_ok]
    cases sp.byte ((p + 1) % 2 ^ 32) <;> simp
  · have htype : ofType k [(p, type)] = [] := by simp [ofType, hk]
    simp [htype, hk, ids]

theorem note_ok (h : note sp p type f = .ok g) : g.ismp = f.ismp ∧ none ∉ ids sp (ofType 2 [(p, type)]) ∧
    g.cpus.map some = f.cpus.map some ++ ids sp ((ofType 0 [(p, type)]).take (NCPU - f.cpus.length)) := by
  simp only [note] at h
  rw [ids_ofType_single]
  by_cases h0 : type = 0
  · subst h0
    have htype : ofType 0 [(p, (0 : UInt8))] = [p] := rfl
    rw [if_pos rfl] at h
    rw [htype]
    split_ifs at h with hn
    · obtain ⟨b, hb, h⟩ := bind_eq_ok.mp h
      cases h
      obtain ⟨k, hk⟩ : ∃ k, NCPU - f.cpus.length = k + 1 := ⟨NCPU - f.cpus.length - 1, by omega⟩
      refine ⟨rfl, fun he => absurd he (by decide), ?_⟩
      rw [hk, List.take_succ_cons, ids, List.map_cons, read_eq_ok.mp hb]
      simp
    · cases h
      refine ⟨rfl, fun he => absurd he (by decide), ?_⟩
      rw [Nat.sub_eq_zero_of_le (by omega)]
      simp [ids]
  · have htype : ofType 0 [(p, type)] = [] := by simp [ofType, h0]
    rw [if_neg h0] at h
    rw [htype]
    split_ifs at h with h2
    · obtain ⟨b, hb, h⟩ := bind_eq_ok.mp h
      cases h
      exact ⟨rfl, fun _ => ⟨b, hb⟩, by simp [ids]⟩
    · cases h
      exact ⟨rfl, fun he => absurd he h2, by simp [ids]⟩

theorem note_exists (h0 : none ∉ ids sp ((ofType 0 [(p, type)]).take (NCPU - f.cpus.length)))
    (h2 : none ∉ ids sp (ofType 2 [(p, type)])) : ∃ g, note sp p type f = .ok g := by
  rw [note]
  split_ifs with h hn h'
  · rw [List.take_of_length_le (by simp [ofType, h]; omega)] at h0
    obtain ⟨b, hb⟩ := ids_ofType_single.mp h0 h
    exact ⟨_, by rw [hb, ok_bind]⟩
  · exact ⟨f, rfl⟩
  · obtain ⟨b, hb⟩ := ids_ofType_single.mp h2 h'
    exact ⟨_, by rw [hb, ok_bind]⟩
  · exact ⟨f, rfl⟩

theorem note_stop (h : note sp p type f = .stop m) : m = "trap" := by
  rw [note] at h
  split_ifs at h
  all_goals
    rcases bind_eq_stop.mp h with h | ⟨b, -, h⟩
    · exact read_eq_stop h
    · cases h

theorem ofType_cons {k : UInt8} {x : ℕ × UInt8} : ofType k (x :: es) = ofType k [x] ++ ofType k es := by
  rw [ofType, ← List.singleton_append, List.filter_append, List.map_append]
  rfl

theorem ids_append {ps qs : List ℕ} : ids sp (ps ++ qs) = ids sp ps ++ ids sp qs := List.map_append

theorem ids_take_cons {x : ℕ × UInt8} (hg : g.cpus.map some = f.cpus.map some ++
    ids sp ((ofType 0 [x]).take (NCPU - f.cpus.length))) :
    ids sp ((ofType 0 (x :: es)).take (NCPU - f.cpus.length)) =
      ids sp ((ofType 0 [x]).take (NCPU - f.cpus.length)) ++ ids sp ((ofType 0 es).take (NCPU - g.cpus.length)) := by
  have hlen := congrArg List.length hg
  simp only [List.length_map, List.length_append, ids, List.length_take] at hlen
  rw [ofType_cons, List.take_append, ids_append]
  congr 3
  omega

theorem entryLoop_stop (h : entryLoop sp e fuel p f = .stop m) : m = "trap" := by
  induction fuel generalizing p f with
  | zero => cases h
  | succ fuel ih =>
    by_cases hp : p < e
    · have hround := h
      rw [entryLoop, if_pos hp] at hround
      rcases bind_eq_stop.mp hround with hr | ⟨type, ht, -⟩
      · exact read_eq_stop hr
      · cases hs : entrySize type with
        | none =>
          rw [entryLoop_unknown hp ht hs] at h
          cases h
        | some size =>
          rw [entryLoop_known hp ht hs] at h
          rcases bind_eq_stop.mp h with hn | ⟨f', -, h⟩
          · exact note_stop hn
          · exact ih h
    · rw [entryLoop_done (by omega)] at h
      cases h

theorem entryLoop_ok (h : entryLoop sp e fuel p f = .ok g) : ∃ es, Entries sp e p es ∧ g.ismp = f.ismp ∧
    none ∉ ids sp (ofType 2 es) ∧
    g.cpus.map some = f.cpus.map some ++ ids sp ((ofType 0 es).take (NCPU - f.cpus.length)) := by
  induction fuel generalizing p f with
  | zero => cases h
  | succ fuel ih =>
    by_cases hp : p < e
    · have hround := h
      rw [entryLoop, if_pos hp] at hround
      obtain ⟨type, ht, -⟩ := bind_eq_ok.mp hround
      cases hs : entrySize type with
      | none =>
        rw [entryLoop_unknown hp ht hs] at h
        cases h
      | some size =>
        rw [entryLoop_known hp ht hs] at h
        obtain ⟨f', hn, h⟩ := bind_eq_ok.mp h
        obtain ⟨hismp, hio, hcpus⟩ := note_ok hn
        obtain ⟨es, hes, hismp', hio', hcpus'⟩ := ih h
        refine ⟨(p, type) :: es, .cons hp ht hs hes, hismp'.trans hismp, ?_, ?_⟩
        · rw [ofType_cons, ids_append, List.mem_append, not_or]
          exact ⟨hio, hio'⟩
        · rw [hcpus', ids_take_cons hcpus, hcpus, List.append_assoc]
    · rw [entryLoop_done (by omega)] at h
      cases h
      exact ⟨[], .nil (by omega), rfl, by simp [ofType, ids], by simp [ids, ofType]⟩

theorem entryLoop_exists (h : Entries sp e p es) (h0 : none ∉ ids sp ((ofType 0 es).take (NCPU - f.cpus.length)))
    (h2 : none ∉ ids sp (ofType 2 es)) : ∃ g, entryLoop sp e (es.length + 1) p f = .ok g := by
  induction h generalizing f with
  | nil hle => exact ⟨f, entryLoop_done hle⟩
  | @cons p size type es hp ht hs _ ih =>
    rw [ofType_cons, ids_append, List.mem_append, not_or] at h2
    have hfirst : none ∉ ids sp ((ofType 0 [(p, type)]).take (NCPU - f.cpus.length)) := by
      rw [ofType_cons, List.take_append, ids_append, List.mem_append, not_or] at h0
      exact h0.1
    obtain ⟨f', hn⟩ := note_exists hfirst h2.1
    obtain ⟨-, -, hcpus⟩ := note_ok hn
    rw [ids_take_cons hcpus, List.mem_append, not_or] at h0
    obtain ⟨g, hg⟩ := ih h0.2 h2.2
    exact ⟨g, by rw [List.length_cons, entryLoop_known hp ht hs, hn, ok_bind, hg]⟩

theorem sum_readable {len : ℕ} {c : UInt8} (h : sum sp len a = .ok c) {i : ℕ} (hi : i < len) :
    ∃ b, read sp (a + i) = .ok b := by
  induction len generalizing a c i with
  | zero => omega
  | succ len ih =>
    obtain ⟨b, hb, h⟩ := bind_eq_ok.mp h
    obtain ⟨r, hr, -⟩ := bind_eq_ok.mp h
    cases i with
    | zero => exact ⟨b, hb⟩
    | succ i =>
      obtain ⟨b', hb'⟩ := ih hr (Nat.lt_of_succ_lt_succ hi)
      exact ⟨b', by rw [← hb']; congr 1; omega⟩

theorem searchLoop_some {n a mp : ℕ} (h : searchLoop sp n a = .ok (some mp)) : sum sp sizeofMp mp = .ok 0 := by
  induction n generalizing a with
  | zero => cases h
  | succ n ih =>
    obtain ⟨same, -, h⟩ := bind_eq_ok.mp h
    cases same with
    | false => exact ih h
    | true =>
      obtain ⟨c, hc, h⟩ := bind_eq_ok.mp h
      split_ifs at h with h0
      · cases h
        rw [hc, h0]
      · exact ih h

theorem mpsearch_some {mp : ℕ} (h : mpsearch sp = .ok (some mp)) : sum sp sizeofMp mp = .ok 0 := by
  obtain ⟨r, hr, h⟩ := bind_eq_ok.mp h
  cases r with
  | none => exact searchLoop_some h
  | some mp' =>
    cases h
    obtain ⟨ebda, -, hr⟩ := bind_eq_ok.mp hr
    split_ifs at hr with h0
    · exact searchLoop_some hr
    · obtain ⟨kb, -, hr⟩ := bind_eq_ok.mp hr
      exact searchLoop_some hr

theorem mpconfig_some (h : mpconfig sp = .ok (some (mp, conf))) :
    sum sp sizeofMp mp = .ok 0 ∧ ∃ length, readShort sp (conf + 4) = .ok length := by
  obtain ⟨r, hr, h⟩ := bind_eq_ok.mp h
  cases r with
  | none => cases h
  | some mp' =>
    obtain ⟨physaddr, -, h⟩ := bind_eq_ok.mp h
    split_ifs at h with h0
    · cases h
    obtain ⟨same, -, h⟩ := bind_eq_ok.mp h
    cases same with
    | false => cases h
    | true =>
      obtain ⟨version, -, h⟩ := bind_eq_ok.mp h
      split_ifs at h with hv
      · cases h
      obtain ⟨length, hlength, h⟩ := bind_eq_ok.mp h
      obtain ⟨c, -, h⟩ := bind_eq_ok.mp h
      split_ifs at h with hc
      · cases h
      cases h
      exact ⟨mpsearch_some hr, length, hlength⟩

variable (sp) in
def InOrder (conf : ℕ) (f : Found) : Prop :=
  f.cpus.length ≤ NCPU ∧ ∃ length es, readShort sp (conf + 4) = .ok length ∧
    Entries sp ((conf + length) % 2 ^ 32) ((conf + sizeofMpconf) % 2 ^ 32) es ∧
    f.cpus.map some = ids sp ((ofType 0 es).take NCPU)

variable (sp) in
def Settles (conf : ℕ) : Prop :=
  ∃ fuel, (∃ r, mpinit sp fuel = .ok r ∧ InOrder sp conf r.found) ∨
    mpinit sp fuel = .stop "Didn't find a suitable machine"

variable (sp) in
def WellFormed (conf : ℕ) : Prop :=
  (∃ w, readWord sp (conf + 36) = .ok w) ∧ ∃ length, readShort sp (conf + 4) = .ok length ∧
    AllKnown sp ((conf + length) % 2 ^ 32) ((conf + sizeofMpconf) % 2 ^ 32) ∧
    ∀ es, Entries sp ((conf + length) % 2 ^ 32) ((conf + sizeofMpconf) % 2 ^ 32) es →
      none ∉ ids sp ((ofType 0 es).take NCPU) ∧ none ∉ ids sp (ofType 2 es)

theorem InOrder.of_loop {conf length : ℕ} (hl : readShort sp (conf + 4) = .ok length)
    (hes : Entries sp ((conf + length) % 2 ^ 32) ((conf + sizeofMpconf) % 2 ^ 32) es)
    (hcpus : f.cpus.map some = ids sp ((ofType 0 es).take NCPU)) : InOrder sp conf f := by
  refine ⟨?_, length, es, hl, hes, hcpus⟩
  have hlen := congrArg List.length hcpus
  simp only [List.length_map, ids, List.length_take] at hlen
  omega

theorem mpinit_eq {mp conf : ℕ} (h : mpconfig sp = .ok (some (mp, conf))) : mpinit sp fuel = (do
    let lapic ← readWord sp (conf + 36)
    let length ← readShort sp (conf + 4)
    let f ← entryLoop sp ((conf + length) % 2 ^ 32) fuel ((conf + sizeofMpconf) % 2 ^ 32) ⟨[], 0, true⟩
    if f.ismp = false then .stop "Didn't find a suitable machine"
    else
      let imcrp ← read sp (mp + 12)
      .ok ⟨f, lapic, imcrp ≠ 0⟩) := by
  rw [mpinit, h, ok_bind]

theorem mpinit_suits (h : mpconfig sp = .ok (some (mp, conf))) :
    mpinit sp fuel ≠ .stop "Didn't find a suitable machine" := by
  intro hstop
  have htrap : "Didn't find a suitable machine" ≠ "trap" := by decide
  rw [mpinit_eq h] at hstop
  rcases bind_eq_stop.mp hstop with hs | ⟨lapic, -, hstop⟩
  · exact htrap (readWord_eq_stop hs)
  rcases bind_eq_stop.mp hstop with hs | ⟨length, -, hstop⟩
  · exact htrap (readShort_eq_stop hs)
  rcases bind_eq_stop.mp hstop with hs | ⟨f, hf, hstop⟩
  · exact htrap (entryLoop_stop hs)
  obtain ⟨es, -, hismp, -⟩ := entryLoop_ok hf
  rw [if_neg (by rw [hismp]; decide)] at hstop
  rcases bind_eq_stop.mp hstop with hs | ⟨imcrp, -, hstop⟩
  · exact htrap (read_eq_stop hs)
  · cases hstop

theorem mpinit_wellFormed (h : mpconfig sp = .ok (some (mp, conf))) {r : Machine}
    (hr : mpinit sp fuel = .ok r) : WellFormed sp conf := by
  rw [mpinit_eq h] at hr
  obtain ⟨lapic, hlapic, hr⟩ := bind_eq_ok.mp hr
  obtain ⟨length, hlength, hr⟩ := bind_eq_ok.mp hr
  obtain ⟨f, hf, -⟩ := bind_eq_ok.mp hr
  obtain ⟨es, hes, -, hio, hcpus⟩ := entryLoop_ok hf
  refine ⟨⟨lapic, hlapic⟩, length, hlength, hes.allKnown, fun es' hes' => ?_⟩
  cases hes'.unique hes
  refine ⟨fun hn => ?_, hio⟩
  rw [List.map_nil, List.nil_append] at hcpus
  rw [List.length_nil, Nat.sub_zero] at hcpus
  rw [← hcpus] at hn
  simp at hn

theorem WellFormed.mpinit (hw : WellFormed sp conf) (h : mpconfig sp = .ok (some (mp, conf))) :
    ∃ fuel r, mpinit sp fuel = .ok r ∧ InOrder sp conf r.found := by
  obtain ⟨⟨lapic, hlapic⟩, length, hlength, hknown, hids⟩ := hw
  obtain ⟨es, hes⟩ := entries_of_allKnown hknown (Nat.le_of_lt (Nat.mod_lt _ (by decide))) .start
    (Nat.mod_lt _ (by decide))
  obtain ⟨f, hf⟩ := entryLoop_exists (f := ⟨[], 0, true⟩) hes (hids es hes).1 (hids es hes).2
  obtain ⟨es', hes', hismp, -, hcpus⟩ := entryLoop_ok hf
  obtain ⟨imcrp, hi⟩ := sum_readable (mpconfig_some h).1 (show 12 < sizeofMp by decide)
  refine ⟨es.length + 1, ⟨f, lapic, imcrp ≠ 0⟩, ?_, .of_loop hlength hes' (by simpa using hcpus)⟩
  rw [mpinit_eq h, hlapic, ok_bind, hlength, ok_bind, hf, ok_bind, if_neg (by rw [hismp]; decide), hi, ok_bind]

def firmware (entries : List UInt8) : KernelSpace where
  byte a :=
    if a < KERNBASE then none
    else if a = KERNBASE + 0x40E then some 0xC0
    else if a = KERNBASE + 0x40F then some 0x9F
    else if a < KERNBASE + 0x9FC00 then some 0
    else some ((mp ++ conf).getD (a - (KERNBASE + 0x9FC00)) 0)
  low _ ha := if_pos ha
where
  mp : List UInt8 := mpSignature ++ [0x10, 0xFC, 0x09, 0] ++ [1, 4, 0x8B, 0, 0, 0, 0, 0]
  conf : List UInt8 := header (0 - (header 0 ++ entries).sum) ++ entries
  header (checksum : UInt8) : List UInt8 :=
    confSignature ++ [UInt8.ofNat (sizeofMpconf + entries.length), 0, 4, checksum] ++ List.replicate 28 0 ++
      [0, 0, 0xE0, 0xFE] ++ List.replicate 4 0

def processors : List UInt8 :=
  [0, 3] ++ List.replicate 18 0 ++ [0, 7] ++ List.replicate 18 0 ++ [1, 0, 0, 0, 0, 0, 0, 0] ++
    [2, 9, 0, 0, 0, 0, 0, 0] ++ [4, 0, 0, 0, 0, 0, 0, 0]

/-- The scan of a table that `mpconfig` accepts comes to its end exactly if every entry is of a known type. -/
theorem mpinit_settles_iff {mp conf : ℕ} (h : mpconfig sp = .ok (some (mp, conf))) :
    Settles sp conf ↔ WellFormed sp conf := by
  constructor
  · rintro ⟨fuel, ⟨r, hr, -⟩ | hstop⟩
    · exact mpinit_wellFormed h hr
    · exact absurd hstop (mpinit_suits h)
  · intro hw
    obtain ⟨fuel, r, hr, ho⟩ := hw.mpinit h
    exact ⟨fuel, Or.inl ⟨r, hr, ho⟩⟩

theorem firmware_settles : mpconfig (firmware processors) = .ok (some (KERNBASE + 0x9FC00, KERNBASE + 0x9FC10)) ∧
    Settles (firmware processors) (KERNBASE + 0x9FC10) := by
  have hconf : mpconfig (firmware processors) = .ok (some (KERNBASE + 0x9FC00, KERNBASE + 0x9FC10)) := by
    decide +kernel
  have hrun : mpinit (firmware processors) 6 = .ok ⟨⟨[3, 7], 9, true⟩, 0xFEE00000, false⟩ := by decide +kernel
  exact ⟨hconf, (mpinit_settles_iff hconf).mpr (mpinit_wellFormed hconf hrun)⟩

/-- An entry of type 5 and a valid checksum: `mpinit` hangs. -/
theorem mpinit_unknown_hangs : ∃ sp mp conf, mpconfig sp = .ok (some (mp, conf)) ∧ (∀ fuel, mpinit sp fuel = .more) ∧
    ¬Settles sp conf := by
  have hconf : mpconfig (firmware [5, 0, 0, 0, 0, 0, 0, 0]) = .ok (some (KERNBASE + 0x9FC00, KERNBASE + 0x9FC10)) := by
    decide +kernel
  have hlapic : readWord (firmware [5, 0, 0, 0, 0, 0, 0, 0]) (KERNBASE + 0x9FC10 + 36) = .ok 0xFEE00000 := by
    decide +kernel
  have hlength : readShort (firmware [5, 0, 0, 0, 0, 0, 0, 0]) (KERNBASE + 0x9FC10 + 4) = .ok 52 := by decide +kernel
  have hmore : ∀ fuel, mpinit (firmware [5, 0, 0, 0, 0, 0, 0, 0]) fuel = .more := by
    intro fuel
    rw [mpinit_eq hconf, hlapic, ok_bind, hlength, ok_bind, entryLoop_unknown (by decide)
      (show read _ _ = .ok 5 by decide +kernel) (by decide), more_bind]
  refine ⟨_, _, _, hconf, hmore, ?_⟩
  rintro ⟨fuel, ⟨r, hr, -⟩ | hstop⟩
  · rw [hmore fuel] at hr
    cases hr
  · rw [hmore fuel] at hstop
    cases hstop

end Xv6.MpTable

import Xv6.ProcTable
import Xv6.ProcKilled

namespace Xv6.ProcTable

open Transition

def ProcState.live : ProcState → Bool
  | .sleeping | .runnable | .running => true
  | .unused | .embryo | .zombie => false

def Thread.child : Thread → Option Slot
  | .allocated np | .stacked np | .copied np => some np
  | .user | .waiting => none

structure Family (t : Ptable) : Prop where
  init : (t.proc t.initproc).state.live = true
  root : (t.proc t.initproc).parent = none
  proper : ∀ i, (t.proc i).parent ≠ some i
  parent : ∀ i p, (t.proc i).parent = some p → (t.proc p).state.live = true
  child : ∀ i, i ≠ t.initproc → (t.proc i).state.live = true ∨ (t.proc i).state = .zombie → (t.proc i).parent ≠ none
  unused : ∀ i, (t.proc i).state = .unused → (t.proc i).parent = none
  sleeper : ∀ c, (t.proc c).state = .sleeping →
    (t.proc c).chan = some c ∧ ∀ i, (t.proc i).parent = some c → (t.proc i).state ≠ .zombie

structure Forks (t : Ptable) : Prop where
  embryo : ∀ i c, (t.proc i).state = .embryo → (t.proc i).parent = some c → t.thread c = .copied i
  state : ∀ c np, (t.thread c).child = some np → (t.proc np).state = .embryo
  apart : ∀ c c' np, (t.thread c).child = some np → (t.thread c').child = some np → c = c'
  copied : ∀ c np, t.thread c = .copied np → (t.proc np).parent = some c
  thread : ∀ c, (t.proc c).state.live = false → t.thread c = .user

structure Tree (t : Ptable) : Prop where
  family : Family t
  forks : Forks t

theorem Ptable.goto_thread (t : Ptable) (c d : Slot) (x : Thread) :
    (t.goto c x).thread d = if d = c then x else t.thread d := by
  simp [Ptable.goto, Function.update_apply]

theorem findSlot_none {t : Ptable} {f : Proc → Bool} (h : findSlot t f = none) (i : Slot) : f (t.proc i) = false := by
  have := List.find?_eq_none.mp h i (List.mem_finRange i)
  simpa using this

variable {t u : Ptable} {c i np q : Slot} {p : Proc} {x : Thread}

structure Alike (t u : Ptable) : Prop where
  thread : ∀ d, u.thread d = t.thread d ∨
    (t.thread d).child = none ∧ (u.thread d).child = none ∧ (t.proc d).state.live = true
  initproc : u.initproc = t.initproc
  parent : ∀ i, (u.proc i).parent = (t.proc i).parent
  state : ∀ i, (u.proc i).state = (t.proc i).state ∨ (t.proc i).state.live = true ∧ (u.proc i).state.live = true
  asleep : ∀ i, (u.proc i).state = .sleeping → (t.proc i).state = .sleeping ∧ (u.proc i).chan = (t.proc i).chan ∨
    (u.proc i).chan = some i ∧ ∀ j, (t.proc j).parent = some i → (t.proc j).state ≠ .zombie

theorem Alike.live (h : Alike t u) (i : Slot) : (u.proc i).state.live = (t.proc i).state.live := by
  rcases h.state i with he | ⟨ht, hu⟩
  · rw [he]
  · rw [ht, hu]

theorem Alike.dead_iff (h : Alike t u) (i : Slot) {x : ProcState} (hx : x.live = false) :
    (u.proc i).state = x ↔ (t.proc i).state = x := by
  rcases h.state i with he | ⟨ht, hu⟩
  · rw [he]
  · constructor
    · intro he
      rw [he, hx] at hu
      cases hu
    · intro he
      rw [he, hx] at ht
      cases ht

theorem Alike.child (h : Alike t u) (d : Slot) : (u.thread d).child = (t.thread d).child := by
  rcases h.thread d with he | ⟨ht, hu, -⟩
  · rw [he]
  · rw [ht, hu]

theorem Alike.copied_iff (h : Alike t u) (d np : Slot) : u.thread d = .copied np ↔ t.thread d = .copied np := by
  rcases h.thread d with he | ⟨ht, hu, -⟩
  · rw [he]
  · constructor
    · intro he
      rw [he] at hu
      cases hu
    · intro he
      rw [he] at ht
      cases ht

theorem Family.alike (h : Family t) (ha : Alike t u) : Family u := by
  constructor
  · rw [ha.initproc, ha.live]
    exact h.init
  · rw [ha.initproc, ha.parent]
    exact h.root
  · intro i
    rw [ha.parent]
    exact h.proper i
  · intro i p hp
    rw [ha.parent] at hp
    rw [ha.live]
    exact h.parent i p hp
  · intro i hi hs
    rw [ha.initproc] at hi
    rw [ha.live, ha.dead_iff i rfl] at hs
    rw [ha.parent]
    exact h.child i hi hs
  · intro i hi
    rw [ha.parent]
    exact h.unused i ((ha.dead_iff i rfl).mp hi)
  · intro c hc
    have hrest : (u.proc c).chan = some c ∧ ∀ j, (t.proc j).parent = some c → (t.proc j).state ≠ .zombie := by
      rcases ha.asleep c hc with ⟨hs, hchan⟩ | hnew
      · obtain ⟨h1, h2⟩ := h.sleeper c hs
        exact ⟨hchan.trans h1, h2⟩
      · exact hnew
    refine ⟨hrest.1, fun i hi hz => ?_⟩
    rw [ha.parent] at hi
    exact hrest.2 i hi ((ha.dead_iff i rfl).mp hz)

theorem Forks.alike (h : Forks t) (ha : Alike t u) : Forks u := by
  constructor
  · intro i c hi hc
    rw [ha.parent] at hc
    rw [ha.copied_iff]
    exact h.embryo i c ((ha.dead_iff i rfl).mp hi) hc
  · intro c np hc
    rw [ha.child] at hc
    exact (ha.dead_iff np rfl).mpr (h.state c np hc)
  · intro c c' np hc hc'
    rw [ha.child] at hc hc'
    exact h.apart c c' np hc hc'
  · intro c np hc
    rw [ha.copied_iff] at hc
    rw [ha.parent]
    exact h.copied c np hc
  · intro c hc
    rw [ha.live] at hc
    rcases ha.thread c with he | ⟨-, -, hl⟩
    · rw [he]
      exact h.thread c hc
    · rw [hc] at hl
      cases hl

theorem Tree.alike (h : Tree t) (ha : Alike t u) : Tree u := ⟨h.family.alike ha, h.forks.alike ha⟩

theorem alike_set (hparent : p.parent = (t.proc i).parent)
    (hstate : p.state = (t.proc i).state ∨ (t.proc i).state.live = true ∧ p.state.live = true)
    (hasleep : p.state = .sleeping → (t.proc i).state = .sleeping ∧ p.chan = (t.proc i).chan ∨
      p.chan = some i ∧ ∀ j, (t.proc j).parent = some i → (t.proc j).state ≠ .zombie) : Alike t (t.set i p) := by
  constructor
  · exact fun _ => Or.inl rfl
  · rfl
  all_goals intro j; rw [Ptable.set_proc]; split_ifs with hj
  · rw [hj, hparent]
  · rfl
  · rw [hj]
    exact hstate
  · exact Or.inl rfl
  · rw [hj]
    exact hasleep
  · exact fun hs => Or.inl ⟨hs, rfl⟩

theorem alike_goto (hc : (t.proc c).state.live = true) (ht : (t.thread c).child = none) (hx : x.child = none) :
    Alike t (t.goto c x) := by
  refine ⟨fun d => ?_, rfl, fun _ => rfl, fun _ => Or.inl rfl, fun _ hs => Or.inl ⟨hs, rfl⟩⟩
  rw [Ptable.goto_thread]
  split_ifs with hd
  · rw [hd]
    exact Or.inr ⟨ht, hx, hc⟩
  · exact Or.inl rfl

theorem wakeupAll_state (t : Ptable) (c i : Slot) : ((wakeupAll t c).proc i).state =
    if (t.proc i).state = .sleeping ∧ (t.proc i).chan = some c then .runnable else (t.proc i).state := by
  simp only [wakeupAll, wakeup1]
  split_ifs <;> rfl

theorem wakeupAll_parent (t : Ptable) (c i : Slot) : ((wakeupAll t c).proc i).parent = (t.proc i).parent := by
  simp only [wakeupAll, wakeup1]
  split_ifs <;> rfl

theorem wakeupAll_chan (t : Ptable) (c i : Slot) : ((wakeupAll t c).proc i).chan = (t.proc i).chan := by
  simp only [wakeupAll, wakeup1]
  split_ifs <;> rfl

theorem alike_wakeupAll (t : Ptable) (c : Slot) : Alike t (wakeupAll t c) := by
  refine ⟨fun _ => Or.inl rfl, rfl, wakeupAll_parent t c, fun i => ?_, fun i hs => ?_⟩
  · rw [wakeupAll_state]
    split_ifs with hs
    · rw [hs.1]
      exact Or.inr ⟨rfl, rfl⟩
    · exact Or.inl rfl
  · rw [wakeupAll_state] at hs
    split_ifs at hs
    exact Or.inl ⟨hs, wakeupAll_chan t c i⟩

theorem Family.wakeupAll_self (h : Family t) (c : Slot) : ((wakeupAll t c).proc c).state ≠ .sleeping := by
  rw [wakeupAll_state]
  split_ifs with hs
  · exact ProcState.noConfusion
  · exact fun he => hs ⟨he, (h.sleeper c he).1⟩

inductive Filling (c np : Slot) (p : Proc) : Thread → Prop
  | empty (hs : p.state = .unused) (hp : p.parent = none) : Filling c np p .user
  | allocated (hs : p.state = .embryo) (hp : p.parent = none) : Filling c np p (.allocated np)
  | stacked (hs : p.state = .embryo) (hp : p.parent = none) : Filling c np p (.stacked np)
  | copied (hs : p.state = .embryo) (hp : p.parent = some c) : Filling c np p (.copied np)
  | done (hs : p.state = .runnable) (hp : p.parent = some c) : Filling c np p .user

theorem Filling.child_eq {j : Slot} (h : Filling c np p x) (hj : x.child = some j) : j = np ∧ p.state = .embryo := by
  cases h <;> simp_all [Thread.child]

theorem Filling.parent_eq {y : Slot} (h : Filling c np p x) (hy : p.parent = some y) : y = c := by
  cases h <;> simp_all

theorem Filling.has_parent (h : Filling c np p x) (hs : p.state.live = true ∨ p.state = .zombie) : p.parent ≠ none := by
  cases h <;> simp_all [ProcState.live]

theorem Filling.no_parent (h : Filling c np p x) (hs : p.state = .unused) : p.parent = none := by
  cases h <;> simp_all

theorem Filling.awake (h : Filling c np p x) : p.state ≠ .sleeping ∧ p.state ≠ .zombie := by
  cases h <;> simp_all

theorem Filling.copied_of {y : Slot} (h : Filling c np p x) (hs : p.state = .embryo) (hy : p.parent = some y) :
    x = .copied np := by
  cases h <;> simp_all

theorem Filling.parent_of {j : Slot} (h : Filling c np p x) (hx : x = .copied j) : p.parent = some c ∧ j = np := by
  cases h <;> simp_all

structure Fills (t : Ptable) (c np : Slot) : Prop where
  running : (t.proc c).state = .running
  slot : (t.proc np).state = .unused ∨ (t.proc np).state = .zombie ∨ (t.thread c).child = some np
  call : (t.thread c).child = none ∨ (t.thread c).child = some np

theorem Fills.dead (h : Fills t c np) (hf : Forks t) : (t.proc np).state.live = false := by
  rcases h.slot with he | he | he
  · rw [he]
    rfl
  · rw [he]
    rfl
  · rw [hf.state c np he]
    rfl

theorem Fills.ne (h : Fills t c np) (hf : Forks t) : np ≠ c := by
  rintro rfl
  have := h.dead hf
  rw [h.running] at this
  cases this

theorem Fills.childless (h : Fills t c np) (ht : Tree t) (j : Slot) : (t.proc j).parent ≠ some np := by
  intro hj
  have := ht.family.parent j np hj
  rw [h.dead ht.forks] at this
  cases this

theorem Fills.owner (h : Fills t c np) (hf : Forks t) {d : Slot} (hd : (t.thread d).child = some np) : d = c := by
  have hs := hf.state d np hd
  rcases h.slot with he | he | he
  · rw [he] at hs
    cases hs
  · rw [he] at hs
    cases hs
  · exact hf.apart d c np hd he

theorem Fills.child_eq (h : Fills t c np) {j : Slot} (hj : (t.thread c).child = some j) : j = np := by
  rcases h.call with he | he
  · rw [he] at hj
    cases hj
  · rw [he] at hj
    exact (Option.some.inj hj).symm

theorem fill_self : ((t.set np p).goto c x).proc np = p := by
  rw [Ptable.goto_proc, Ptable.set_proc, if_pos rfl]

theorem fill_of_ne {j : Slot} (hj : j ≠ np) : ((t.set np p).goto c x).proc j = t.proc j := by
  rw [Ptable.goto_proc, Ptable.set_proc, if_neg hj]

theorem fill_thread : ((t.set np p).goto c x).thread c = x := by
  rw [Ptable.goto_thread, if_pos rfl]

theorem fill_thread_of_ne {d : Slot} (hd : d ≠ c) : ((t.set np p).goto c x).thread d = t.thread d := by
  rw [Ptable.goto_thread, if_neg hd, Ptable.set_thread]

theorem Family.fill (h : Tree t) (hf : Fills t c np) (hx : Filling c np p x) : Family ((t.set np p).goto c x) := by
  have hinit : t.initproc ≠ np := by
    rintro rfl
    have := hf.dead h.forks
    rw [h.family.init] at this
    cases this
  have hc := (hf.ne h.forks).symm
  constructor
  · exact (congrArg (fun q => q.state.live) (fill_of_ne hinit)).trans h.family.init
  · exact (congrArg Proc.parent (fill_of_ne hinit)).trans h.family.root
  · intro j hj
    by_cases he : j = np
    · rw [he, fill_self] at hj
      exact hf.ne h.forks (hx.parent_eq hj)
    · rw [fill_of_ne he] at hj
      exact h.family.proper j hj
  · intro j y hy
    by_cases he : j = np
    · rw [he, fill_self] at hy
      rw [hx.parent_eq hy, fill_of_ne hc, hf.running]
      rfl
    · rw [fill_of_ne he] at hy
      rw [fill_of_ne fun hn : y = np => hf.childless h j (hn ▸ hy)]
      exact h.family.parent j y hy
  · intro j hj hs
    by_cases he : j = np
    · rw [he, fill_self] at hs ⊢
      exact hx.has_parent hs
    · rw [fill_of_ne he] at hs ⊢
      exact h.family.child j hj hs
  · intro j hs
    by_cases he : j = np
    · rw [he, fill_self] at hs ⊢
      exact hx.no_parent hs
    · rw [fill_of_ne he] at hs ⊢
      exact h.family.unused j hs
  · intro d hd
    have hdn : d ≠ np := by
      rintro rfl
      rw [fill_self] at hd
      exact hx.awake.1 hd
    rw [fill_of_ne hdn] at hd ⊢
    obtain ⟨h1, h2⟩ := h.family.sleeper d hd
    refine ⟨h1, fun j hj => ?_⟩
    by_cases he : j = np
    · rw [he, fill_self]
      exact hx.awake.2
    · rw [fill_of_ne he] at hj ⊢
      exact h2 j hj

theorem Forks.fill (h : Forks t) (hf : Fills t c np) (hx : Filling c np p x) : Forks ((t.set np p).goto c x) := by
  have hc := (hf.ne h).symm
  constructor
  · intro j d hs hd
    by_cases he : j = np
    · rw [he, fill_self] at hs hd
      rw [hx.parent_eq hd, fill_thread, he]
      exact hx.copied_of hs hd
    · rw [fill_of_ne he] at hs hd
      have hth := h.embryo j d hs hd
      have : d ≠ c := by
        rintro rfl
        exact he (hf.child_eq (by rw [hth]; rfl))
      rw [fill_thread_of_ne this]
      exact hth
  · intro d j hd
    by_cases he : d = c
    · rw [he, fill_thread] at hd
      obtain ⟨rfl, hs⟩ := hx.child_eq hd
      rw [fill_self]
      exact hs
    · rw [fill_thread_of_ne he] at hd
      rw [fill_of_ne fun hn : j = np => he (hf.owner h (hn ▸ hd))]
      exact h.state d j hd
  · intro d d' j hd hd'
    by_cases he : d = c <;> by_cases he' : d' = c
    · rw [he, he']
    · rw [he, fill_thread] at hd
      rw [fill_thread_of_ne he'] at hd'
      exact absurd (hf.owner h ((hx.child_eq hd).1 ▸ hd')) he'
    · rw [he', fill_thread] at hd'
      rw [fill_thread_of_ne he] at hd
      exact absurd (hf.owner h ((hx.child_eq hd').1 ▸ hd)) he
    · rw [fill_thread_of_ne he] at hd
      rw [fill_thread_of_ne he'] at hd'
      exact h.apart d d' j hd hd'
  · intro d j hd
    by_cases he : d = c
    · rw [he, fill_thread] at hd
      obtain ⟨hp, rfl⟩ := hx.parent_of hd
      rw [fill_self, he]
      exact hp
    · rw [fill_thread_of_ne he] at hd
      rw [fill_of_ne fun hn => he (hf.owner h (by rw [hd, ← hn]; rfl))]
      exact h.copied d j hd
  · intro d hd
    by_cases he : d = c
    · rw [he, fill_of_ne hc, hf.running] at hd
      cases hd
    · rw [fill_thread_of_ne he]
      by_cases hn : d = np
      · rw [hn]
        exact h.thread np (hf.dead h)
      · rw [fill_of_ne hn] at hd
        exact h.thread d hd

theorem Tree.fill (h : Tree t) (hf : Fills t c np) (hx : Filling c np p x) : Tree ((t.set np p).goto c x) :=
  ⟨Family.fill h hf hx, h.forks.fill hf hx⟩

theorem Tree.allocproc (h : Tree t) (hc : (t.proc c).state = .running) (hu : t.thread c = .user) :
    Tree (allocproc t c) := by
  rw [ProcTable.allocproc]
  split
  · exact h
  · next i hi =>
    have hi : (t.proc i).state = .unused := by simpa using findSlot_some hi
    have ht := h.fill ⟨hc, Or.inl hi, Or.inl (by rw [hu]; rfl)⟩
      (p := { t.proc i with state := .embryo, pid := t.nextpid }) (.allocated rfl (h.family.unused i hi))
    exact ht.alike ⟨fun _ => Or.inl rfl, rfl, fun _ => rfl, fun _ => Or.inl rfl, fun _ hs => Or.inl ⟨hs, rfl⟩⟩

theorem fills_of_child (hc : (t.proc c).state = .running) (hx : (t.thread c).child = some np) : Fills t c np :=
  ⟨hc, Or.inr (Or.inr hx), Or.inr hx⟩

theorem Tree.orphan (h : Tree t) (hx : (t.thread c).child = some np) (hn : t.thread c ≠ .copied np) :
    (t.proc np).parent = none := by
  cases hp : (t.proc np).parent with
  | none => rfl
  | some d =>
    have hd := h.forks.embryo np d (h.forks.state c np hx) hp
    have : d = c := h.forks.apart d c np (by rw [hd]; rfl) hx
    exact absurd (this ▸ hd) hn

theorem Tree.allocStack (h : Tree t) (hc : (t.proc c).state = .running) (hx : t.thread c = .allocated np) (ok : Bool) :
    Tree (allocStack t c np ok) := by
  have hchild : (t.thread c).child = some np := by rw [hx]; rfl
  have hnone := h.orphan hchild (by rw [hx]; exact Thread.noConfusion)
  cases ok
  · exact h.fill (fills_of_child hc hchild) (.empty rfl hnone)
  · exact h.fill (fills_of_child hc hchild) (.stacked (h.forks.state c np hchild) hnone)

theorem Tree.forkCopy (h : Tree t) (hc : (t.proc c).state = .running) (hx : t.thread c = .stacked np) (ok : Bool) :
    Tree (forkCopy t c np ok) := by
  have hchild : (t.thread c).child = some np := by rw [hx]; rfl
  have hnone := h.orphan hchild (by rw [hx]; exact Thread.noConfusion)
  cases ok
  · exact h.fill (fills_of_child hc hchild) (.empty rfl hnone)
  · exact h.fill (fills_of_child hc hchild) (.copied (h.forks.state c np hchild) rfl)

theorem Tree.forkRun (h : Tree t) (hc : (t.proc c).state = .running) (hx : t.thread c = .copied np) :
    Tree (forkRun t c np) :=
  h.fill (fills_of_child hc (by rw [hx]; rfl)) (.done rfl (h.forks.copied c np hx))

theorem Tree.kill (h : Tree t) (pid : Int32) : Tree (kill t pid).1 := by
  rw [ProcTable.kill]
  split
  · apply h.alike
    apply alike_set
    · rfl
    · dsimp only
      split_ifs with hs
      · rw [hs]
        exact Or.inr ⟨rfl, rfl⟩
      · exact Or.inl rfl
    · intro hs
      dsimp only at hs
      split_ifs at hs
      contradiction
  · exact h

structure Leaving (t : Ptable) (c : Slot) : Prop where
  tree : Tree t
  user : t.thread c = .user
  running : (t.proc c).state = .running
  mortal : c ≠ t.initproc
  told : ∀ q, (t.proc c).parent = some q → (t.proc q).state ≠ .sleeping

theorem Leaving.wakeupAll (h : Leaving t c) (q : Slot) : Leaving (wakeupAll t q) c := by
  refine ⟨h.tree.alike (alike_wakeupAll t q), h.user, ?_, h.mortal, fun r hr => ?_⟩
  · rw [wakeupAll_state, if_neg, h.running]
    rw [h.running]
    exact fun he => ProcState.noConfusion he.1
  · rw [wakeupAll_parent] at hr
    rw [wakeupAll_state]
    split_ifs
    · exact ProcState.noConfusion
    · exact h.told r hr

theorem Leaving.adopt (h : Leaving t c) (hi : (t.proc i).parent = some c)
    (hz : (t.proc i).state = .zombie → (t.proc t.initproc).state ≠ .sleeping) :
    Leaving (t.set i { t.proc i with parent := some t.initproc }) c := by
  have hne : i ≠ c := by
    rintro rfl
    exact h.tree.family.proper i hi
  have hroot : t.initproc ≠ i := by
    intro he
    have := h.tree.family.root
    rw [he, hi] at this
    cases this
  have hstate : ∀ j, ((t.set i { t.proc i with parent := some t.initproc }).proc j).state = (t.proc j).state := by
    intro j
    rw [Ptable.set_proc]
    split_ifs with hj
    · rw [hj]
    · rfl
  have hchan : ∀ j, ((t.set i { t.proc i with parent := some t.initproc }).proc j).chan = (t.proc j).chan := by
    intro j
    rw [Ptable.set_proc]
    split_ifs with hj
    · rw [hj]
    · rfl
  have hself : ((t.set i { t.proc i with parent := some t.initproc }).proc i).parent = some t.initproc := by
    rw [Ptable.set_proc, if_pos rfl]
  have hold : ∀ j, j ≠ i → ((t.set i { t.proc i with parent := some t.initproc }).proc j).parent =
      (t.proc j).parent := by
    intro j hj
    rw [Ptable.set_proc, if_neg hj]
  have hborn : (t.proc i).state ≠ .embryo := by
    intro he
    have := h.tree.forks.embryo i c he hi
    rw [h.user] at this
    cases this
  refine ⟨⟨⟨?_, ?_, ?_, ?_, ?_, ?_, ?_⟩, ⟨?_, ?_, h.tree.forks.apart, ?_, ?_⟩⟩, h.user, ?_, h.mortal, ?_⟩
  · rw [hstate]
    exact h.tree.family.init
  · exact (hold _ hroot).trans h.tree.family.root
  · intro j hj
    by_cases he : j = i
    · rw [he, hself, Option.some.injEq] at hj
      exact hroot hj
    · rw [hold j he] at hj
      exact h.tree.family.proper j hj
  · intro j y hy
    rw [hstate]
    by_cases he : j = i
    · rw [he, hself, Option.some.injEq] at hy
      rw [← hy]
      exact h.tree.family.init
    · rw [hold j he] at hy
      exact h.tree.family.parent j y hy
  · intro j hj hs
    by_cases he : j = i
    · rw [he, hself]
      exact Option.some_ne_none _
    · rw [hold j he]
      rw [hstate] at hs
      exact h.tree.family.child j hj hs
  · intro j hs
    rw [hstate] at hs
    have hj := h.tree.family.unused j hs
    rw [hold j]
    · exact hj
    · rintro rfl
      rw [hi] at hj
      cases hj
  · intro d hd
    rw [hstate] at hd
    obtain ⟨h1, h2⟩ := h.tree.family.sleeper d hd
    refine ⟨(hchan d).trans h1, fun j hj => ?_⟩
    rw [hstate]
    by_cases he : j = i
    · rw [he, hself, Option.some.injEq] at hj
      rw [he]
      exact fun hzi => hz hzi (hj ▸ hd)
    · rw [hold j he] at hj
      exact h2 j hj
  · intro j d hs hd
    rw [hstate] at hs
    rw [hold j] at hd
    · exact h.tree.forks.embryo j d hs hd
    · rintro rfl
      exact hborn hs
  · intro d j hd
    rw [hstate]
    exact h.tree.forks.state d j hd
  · intro d j hd
    rw [hold j]
    · exact h.tree.forks.copied d j hd
    · rintro rfl
      exact hborn (h.tree.forks.state d j (by rw [show t.thread d = _ from hd]; rfl))
  · intro d hd
    rw [hstate] at hd
    exact h.tree.forks.thread d hd
  · rw [hstate]
    exact h.running
  · intro r hr
    rw [hold c hne.symm] at hr
    rw [hstate]
    exact h.told r hr

theorem wakeupAll_set (hp : p.state ≠ .sleeping) : wakeupAll (t.set i p) q = (wakeupAll t q).set i p := by
  have hproc : ∀ j, (wakeupAll (t.set i p) q).proc j = ((wakeupAll t q).set i p).proc j := by
    intro j
    rw [Ptable.set_proc]
    simp only [wakeupAll, Ptable.set_proc]
    split_ifs
    · rw [wakeup1, if_neg fun he => hp he.1]
    · rfl
  exact congrArg (fun f => { t with proc := f }) (funext hproc)

theorem wakeupAll_of_ne (hi : (t.proc i).state ≠ .sleeping) : (wakeupAll t q).proc i = t.proc i :=
  if_neg fun he => hi he.1

theorem Leaving.reparent (h : Leaving t c) (i : Slot) : Leaving (reparent c t i) c := by
  rw [ProcTable.reparent]
  split_ifs with hp hz
  · have hne : (t.proc i).state ≠ .sleeping := by rw [hz]; exact ProcState.noConfusion
    have hcomm : ProcTable.wakeupAll (t.set i { t.proc i with parent := some t.initproc }) t.initproc =
        (ProcTable.wakeupAll t t.initproc).set i
          { (ProcTable.wakeupAll t t.initproc).proc i with parent := some t.initproc } := by
      rw [wakeupAll_of_ne hne]
      exact wakeupAll_set hne
    dsimp only
    rw [hcomm]
    apply (h.wakeupAll t.initproc).adopt
    · rw [wakeupAll_parent, hp]
    · exact fun _ => h.tree.family.wakeupAll_self t.initproc
  · exact h.adopt hp fun he => absurd he hz
  · exact h

theorem reparent_parent (hc : c ≠ t.initproc) (i j : Slot) (hj : ((reparent c t i).proc j).parent = some c) :
    (t.proc j).parent = some c ∧ j ≠ i := by
  have hset : ((t.set i { t.proc i with parent := some t.initproc }).proc j).parent = some c →
      (t.proc j).parent = some c ∧ j ≠ i := by
    intro hj
    rw [Ptable.set_proc] at hj
    split_ifs at hj with he
    · exact absurd (Option.some.inj hj).symm hc
    · exact ⟨hj, he⟩
  rw [reparent] at hj
  split_ifs at hj with hp hz
  · rw [wakeupAll_parent] at hj
    exact hset hj
  · exact hset hj
  · refine ⟨hj, ?_⟩
    rintro rfl
    exact hp hj

theorem Leaving.foldl (h : Leaving t c) (is : List Slot) : Leaving (is.foldl (ProcTable.reparent c) t) c ∧
    ∀ j, ((is.foldl (ProcTable.reparent c) t).proc j).parent = some c → (t.proc j).parent = some c ∧ j ∉ is := by
  induction is generalizing t with
  | nil => exact ⟨h, fun j hj => ⟨hj, List.not_mem_nil⟩⟩
  | cons i is ih =>
    obtain ⟨h1, h2⟩ := ih (h.reparent i)
    refine ⟨h1, fun j hj => ?_⟩
    obtain ⟨hp, hn⟩ := h2 j hj
    obtain ⟨hp, hi⟩ := reparent_parent h.mortal i j hp
    exact ⟨hp, by simp [hi, hn]⟩

theorem Leaving.zombie (h : Leaving t c) (hkids : ∀ j, (t.proc j).parent ≠ some c) :
    Tree (t.set c { t.proc c with state := .zombie }) := by
  have hself : ((t.set c { t.proc c with state := .zombie }).proc c).state = .zombie := by
    rw [Ptable.set_proc, if_pos rfl]
  have hold : ∀ j, j ≠ c → (t.set c { t.proc c with state := .zombie }).proc j = t.proc j := by
    intro j hj
    rw [Ptable.set_proc, if_neg hj]
  have hparent : ∀ j, ((t.set c { t.proc c with state := .zombie }).proc j).parent = (t.proc j).parent := by
    intro j
    rw [Ptable.set_proc]
    split_ifs with hj
    · rw [hj]
    · rfl
  refine ⟨⟨?_, ?_, ?_, ?_, ?_, ?_, ?_⟩, ⟨?_, ?_, h.tree.forks.apart, ?_, ?_⟩⟩
  · rw [show (t.set c _).initproc = t.initproc from rfl, hold _ h.mortal.symm]
    exact h.tree.family.init
  · rw [hparent]
    exact h.tree.family.root
  · intro j
    rw [hparent]
    exact h.tree.family.proper j
  · intro j y hy
    rw [hparent] at hy
    rw [hold]
    · exact h.tree.family.parent j y hy
    · rintro rfl
      exact hkids j hy
  · intro j hj hs
    rw [hparent]
    by_cases he : j = c
    · rw [he]
      exact h.tree.family.child c h.mortal (Or.inl (by rw [h.running]; rfl))
    · rw [hold j he] at hs
      exact h.tree.family.child j hj hs
  · intro j hs
    rw [hparent]
    by_cases he : j = c
    · rw [he, hself] at hs
      cases hs
    · rw [hold j he] at hs
      exact h.tree.family.unused j hs
  · intro d hd
    have hdc : d ≠ c := by
      rintro rfl
      rw [hself] at hd
      cases hd
    rw [hold d hdc] at hd ⊢
    obtain ⟨h1, h2⟩ := h.tree.family.sleeper d hd
    refine ⟨h1, fun j hj => ?_⟩
    rw [hparent] at hj
    by_cases he : j = c
    · subst he
      exact absurd hd (h.told d hj)
    · rw [hold j he]
      exact h2 j hj
  · intro j d hs hd
    rw [hparent] at hd
    rw [hold] at hs
    · exact h.tree.forks.embryo j d hs hd
    · rintro rfl
      rw [hself] at hs
      cases hs
  · intro d j hd
    rw [hold]
    · exact h.tree.forks.state d j hd
    · rintro rfl
      have := h.tree.forks.state d j hd
      rw [h.running] at this
      cases this
  · intro d j hd
    rw [hparent]
    exact h.tree.forks.copied d j hd
  · intro d hd
    by_cases he : d = c
    · rw [he]
      exact h.user
    · rw [hold d he] at hd
      exact h.tree.forks.thread d hd

theorem Tree.exit (h : Tree t) (hc : (t.proc c).state = .running) (hu : t.thread c = .user) (he : exit t c = .ok u) :
    Tree u := by
  rw [ProcTable.exit] at he
  split_ifs at he with hinit
  cases he
  have hleave : ∀ t1 : Ptable, Leaving t1 c →
      Tree (((List.finRange NPROC).foldl (ProcTable.reparent c) t1).set c
        { ((List.finRange NPROC).foldl (ProcTable.reparent c) t1).proc c with state := .zombie }) := by
    intro t1 hl
    obtain ⟨h1, h2⟩ := hl.foldl (List.finRange NPROC)
    exact h1.zombie fun j hj => (h2 j hj).2 (List.mem_finRange j)
  apply hleave
  split
  · next q hq =>
    refine ⟨h.alike (alike_wakeupAll t q), hu, ?_, hinit, fun r hr => ?_⟩
    · rw [wakeupAll_of_ne (by rw [hc]; exact ProcState.noConfusion), hc]
    · rw [wakeupAll_parent, hq, Option.some.injEq] at hr
      rw [← hr]
      exact h.family.wakeupAll_self q
  · next hq =>
    refine ⟨h, hu, hc, hinit, fun r hr => ?_⟩
    rw [hq] at hr
    cases hr

theorem Tree.wait (h : Tree t) (hc : (t.proc c).state = .running) (hu : (t.thread c).child = none) :
    Tree (wait t c).1 := by
  have h0 : Tree (t.set c { t.proc c with chan := none }) := by
    apply h.alike
    apply alike_set
    · rfl
    · exact Or.inl rfl
    · intro hs
      rw [hc] at hs
      cases hs
  have hc0 : ((t.set c { t.proc c with chan := none }).proc c).state = .running := by
    rw [Ptable.set_proc, if_pos rfl]
    exact hc
  have hu0 : ((t.set c { t.proc c with chan := none }).thread c).child = none := hu
  rw [ProcTable.wait]
  set t0 := t.set c { t.proc c with chan := none }
  have hl0 : (t0.proc c).state.live = true := by rw [hc0]; rfl
  dsimp only
  split
  · next i hi =>
    have hi := findSlot_some hi
    simp only [Bool.decide_and, Bool.and_eq_true, decide_eq_true_eq] at hi
    exact h0.fill ⟨hc0, Or.inr (Or.inl hi.2), Or.inl hu0⟩ (.empty rfl rfl)
  · next hnone =>
    split_ifs with hstop
    · exact h0.alike (alike_goto hl0 hu0 rfl)
    · have hsleep : Alike t0 (t0.set c { t0.proc c with chan := some c, state := .sleeping }) := by
        apply alike_set
        · rfl
        · exact Or.inr ⟨hl0, rfl⟩
        · refine fun _ => Or.inr ⟨rfl, fun j hj hz => ?_⟩
          have := findSlot_none hnone j
          simp [hj, hz] at this
      apply (h0.alike hsleep).alike
      apply alike_goto
      · rw [Ptable.set_proc, if_pos rfl]
        rfl
      · exact hu0
      · rfl

theorem Tree.act {e : Event} (h : Tree t) (hc : (t.proc e.slot).state = .running) (hs : act t e = some (.ok u)) :
    Tree u := by
  cases e with
  | schedule c => cases hs
  | yield c =>
    cases hs
    apply h.alike
    apply alike_set
    · rfl
    · exact Or.inr ⟨by rw [show (t.proc c).state = _ from hc]; rfl, rfl⟩
    · intro hs
      cases hs
  | allocproc c =>
    simp only [ProcTable.act] at hs
    split_ifs at hs with hu
    cases hs
    exact h.allocproc hc hu
  | allocStack c ok =>
    simp only [ProcTable.act] at hs
    split at hs
    next hx => cases hs; exact h.allocStack hc hx ok
    next => cases hs
  | forkCopy c ok =>
    simp only [ProcTable.act] at hs
    split at hs
    next hx => cases hs; exact h.forkCopy hc hx ok
    next => cases hs
  | forkRun c =>
    simp only [ProcTable.act] at hs
    split at hs
    next hx => cases hs; exact h.forkRun hc hx
    next => cases hs
  | exit c =>
    simp only [ProcTable.act] at hs
    split_ifs at hs with hu
    exact h.exit hc hu (Option.some.inj hs)
  | wait c =>
    simp only [ProcTable.act] at hs
    split_ifs at hs with hu
    cases hs
    have hchild : (t.thread c).child = none := by rcases hu with hu | hu <;> rw [hu] <;> rfl
    exact h.wait hc hchild
  | kill c pid =>
    simp only [ProcTable.act] at hs
    split_ifs at hs
    cases hs
    exact h.kill pid

theorem step_cases {e : Event} (hs : step t e = some (.ok u)) :
    (∃ c, e = .schedule c ∧ (t.proc c).state = .runnable ∧ u = t.set c { t.proc c with state := .running }) ∨
      (t.proc e.slot).state = .running ∧ act t e = some (.ok u) := by
  cases e with
  | schedule c =>
    simp only [step] at hs
    split_ifs at hs with hc
    cases hs
    exact Or.inl ⟨c, rfl, hc, rfl⟩
  | yield | allocproc | allocStack | forkCopy | forkRun | exit | wait | kill =>
    simp only [step] at hs
    split_ifs at hs with hc
    exact Or.inr ⟨hc, hs⟩

theorem Tree.step {e : Event} (h : Tree t) (hs : step t e = some (.ok u)) : Tree u := by
  rcases step_cases hs with ⟨c, rfl, hc, rfl⟩ | ⟨hc, ha⟩
  · apply h.alike
    apply alike_set
    · rfl
    · exact Or.inr ⟨by rw [hc]; rfl, rfl⟩
    · intro hs
      cases hs
  · exact h.act hc ha

theorem boot_tree : Tree boot := by
  have hparent : ∀ i, (boot.proc i).parent = none := by decide
  refine ⟨⟨rfl, rfl, ?_, ?_, ?_, fun i _ => hparent i, ?_⟩, ⟨?_, ?_, ?_, ?_, fun _ _ => rfl⟩⟩
  · intro i hi
    rw [hparent] at hi
    cases hi
  · intro i p hi
    rw [hparent] at hi
    cases hi
  · decide
  · decide
  · intro i c _ hi
    rw [hparent] at hi
    cases hi
  all_goals intro c; intros; contradiction

end Xv6.ProcTable

import Mathlib

/-!
A stream cut into lines as it comes: the lines selected so far, and the unfinished one. What a stream gives does not
depend on the pieces in which it comes as long as the unfinished line is kept between them.
-/

namespace Xv6.LineScan

variable {α : Type} [DecidableEq α]

def scan (sel : List α → Bool) (nl : α) : List α → List α → List α × List α
  | cur, [] => ([], cur)
  | cur, c :: data =>
    if c = nl then ((if sel cur then cur ++ [nl] else []) ++ (scan sel nl [] data).1, (scan sel nl [] data).2)
    else scan sel nl (cur ++ [c]) data

def unlines (nl : α) (lines : List (List α)) : List α := lines.flatMap (· ++ [nl])

variable {sel : List α → Bool} {nl : α} {cur u : List α}

theorem scan_append (a b : List α) :
    scan sel nl cur (a ++ b) =
      ((scan sel nl cur a).1 ++ (scan sel nl (scan sel nl cur a).2 b).1, (scan sel nl (scan sel nl cur a).2 b).2) := by
  induction a generalizing cur with
  | nil => simp [scan]
  | cons c a ih =>
    simp only [List.cons_append, scan]
    split
    · simp only [ih, List.append_assoc]
    · exact ih

theorem scan_rest (h : nl ∉ u) : scan sel nl cur u = ([], cur ++ u) := by
  induction u generalizing cur with
  | nil => simp [scan]
  | cons c u ih =>
    have hc : c ≠ nl := fun e => h (e ▸ List.mem_cons_self)
    rw [scan, if_neg hc, ih fun hu => h (List.mem_cons_of_mem c hu), List.append_assoc]
    rfl

theorem scan_line (h : nl ∉ u) (v : List α) :
    scan sel nl [] (u ++ nl :: v) =
      ((if sel u then u ++ [nl] else []) ++ (scan sel nl [] v).1, (scan sel nl [] v).2) := by
  rw [scan_append, scan_rest h]
  simp [scan]

theorem scan_carried (h : nl ∉ cur) (data : List α) : scan sel nl [] (cur ++ data) = scan sel nl cur data := by
  rw [scan_append, scan_rest h]
  simp

theorem scan_unlines {lines : List (List α)} (h : ∀ l ∈ lines, nl ∉ l) :
    scan sel nl [] (unlines nl lines) = (unlines nl (lines.filter sel), []) := by
  induction lines with
  | nil => rfl
  | cons l lines ih =>
    have e : unlines nl (l :: lines) = l ++ nl :: unlines nl lines := by simp [unlines]
    rw [e, scan_line (h l List.mem_cons_self), ih fun k hk => h k (List.mem_cons_of_mem l hk), List.filter_cons]
    split <;> simp [unlines]

theorem notMem_scan_snd (h : nl ∉ cur) (data : List α) : nl ∉ (scan sel nl cur data).2 := by
  induction data generalizing cur with
  | nil => exact h
  | cons c data ih =>
    rw [scan]
    split
    · exact ih List.not_mem_nil
    · apply ih
      rw [List.mem_append, List.mem_singleton]
      rintro (hc | hc)
      · exact h hc
      · exact absurd hc.symm ‹_›

theorem mem_scan_snd {x : α} {data : List α} (h : x ∈ (scan sel nl cur data).2) : x ∈ cur ∨ x ∈ data := by
  induction data generalizing cur with
  | nil => exact .inl h
  | cons c data ih =>
    rw [scan] at h
    split at h
    · rcases ih h with h | h
      · cases h
      · exact .inr (List.mem_cons_of_mem c h)
    · rcases ih h with h | h
      · rcases List.mem_append.mp h with h | h
        · exact .inl h
        · exact .inr (List.mem_singleton.mp h ▸ List.mem_cons_self)
      · exact .inr (List.mem_cons_of_mem c h)

theorem scan_snd_eq (sel sel' : List α → Bool) (data : List α) :
    (scan sel nl cur data).2 = (scan sel' nl cur data).2 := by
  induction data generalizing cur with
  | nil => rfl
  | cons c data ih =>
    simp only [scan]
    split <;> exact ih

theorem length_scan_all (h : ∀ l, sel l = true) (nl : α) (cur data : List α) :
    (scan sel nl cur data).1.length + (scan sel nl cur data).2.length = cur.length + data.length := by
  induction data generalizing cur with
  | nil => simp [scan]
  | cons c data ih =>
    rw [scan]
    split
    · have := ih []
      simp only [h, if_true, List.length_append, List.length_cons, List.length_nil] at this ⊢
      omega
    · have := ih (cur ++ [c])
      simp only [List.length_append, List.length_cons, List.length_nil] at this ⊢
      omega

end Xv6.LineScan

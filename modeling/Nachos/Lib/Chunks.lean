import Mathlib.Data.List.TakeWhile

/-!
# Lib — Chunks

`chunks p l` are the longest runs of elements of `l` that satisfy `p`, in their order: what a reader
finds that goes over `l` element by element, skips what does not satisfy `p`, and reads on as long as
it does.  `chunks_join` says that a list put together from chunks and separators has these chunks.
-/

namespace Lib

variable {α : Type*} {p : α → Bool}

def chunks (p : α → Bool) : List α → List (List α)
  | [] => []
  | a :: l => if p a then (a :: l.takeWhile p) :: chunks p (l.dropWhile p) else chunks p l
termination_by l => l.length
decreasing_by
  · exact Nat.lt_succ_of_le (List.length_dropWhile_le p l)
  · exact Nat.lt_succ_self _

theorem chunks_nil : chunks p [] = [] := by rw [chunks]

theorem chunks_cons_of_pos {a : α} (l : List α) (h : p a = true) :
    chunks p (a :: l) = (a :: l.takeWhile p) :: chunks p (l.dropWhile p) := by
  rw [chunks, if_pos h]

theorem chunks_cons_of_neg {a : α} (l : List α) (h : p a = false) :
    chunks p (a :: l) = chunks p l := by
  rw [chunks, if_neg (by rw [h]; exact Bool.noConfusion)]

/-- A chunk at the start of a list that goes on with something else. -/
theorem chunks_append {t : List α} (ht : t ≠ []) (hp : ∀ a ∈ t, p a = true) {l : List α}
    (hl : ∀ a ∈ l.head?, p a = false) : chunks p (t ++ l) = t :: chunks p l := by
  have htake : ∀ t : List α, (∀ a ∈ t, p a = true) → (t ++ l).takeWhile p = t := by
    intro t ht
    rw [List.takeWhile_append_of_pos ht]
    cases l with
    | nil => rw [List.takeWhile_nil, List.append_nil]
    | cons b l => rw [List.takeWhile_cons_of_neg (by rw [hl b rfl]; exact Bool.noConfusion), List.append_nil]
  have hdrop : ∀ t : List α, (∀ a ∈ t, p a = true) → (t ++ l).dropWhile p = l := by
    intro t ht
    rw [List.dropWhile_append_of_pos ht]
    cases l with
    | nil => rfl
    | cons b l => rw [List.dropWhile_cons_of_neg (by rw [hl b rfl]; exact Bool.noConfusion)]
  cases t with
  | nil => exact absurd rfl ht
  | cons a t =>
      have ht' : ∀ b ∈ t, p b = true := fun b hb => hp b (List.mem_cons_of_mem a hb)
      rw [List.cons_append, chunks_cons_of_pos _ (hp a List.mem_cons_self), htake t ht', hdrop t ht']

/-- The chunks are not empty, and their elements satisfy `p`. -/
theorem mem_chunks {l t : List α} (ht : t ∈ chunks p l) : t ≠ [] ∧ ∀ a ∈ t, p a = true := by
  induction l using chunks.induct p with
  | case1 => rw [chunks_nil] at ht; cases ht
  | case2 a l ha ih =>
      rw [chunks_cons_of_pos l ha] at ht
      rcases List.mem_cons.mp ht with rfl | ht
      · refine ⟨List.cons_ne_nil _ _, fun b hb => ?_⟩
        rcases List.mem_cons.mp hb with rfl | hb
        · exact ha
        · exact List.mem_takeWhile_imp hb
      · exact ih ht
  | case3 a l ha ih =>
      rw [chunks_cons_of_neg l (by simpa using ha)] at ht
      exact ih ht

/-- Chunks with a separator between them, and something behind the last. -/
def join (sep : α) (tail : List α) : List (List α) → List α
  | [] => tail
  | [t] => t ++ tail
  | t :: t' :: ts => t ++ sep :: join sep tail (t' :: ts)

/-- **What has been put together from chunks has these chunks.** -/
theorem chunks_join {sep : α} (hsep : p sep = false) {tail : List α}
    (htail : ∀ a ∈ tail, p a = false) {ts : List (List α)}
    (hts : ∀ t ∈ ts, t ≠ [] ∧ ∀ a ∈ t, p a = true) : chunks p (join sep tail ts) = ts := by
  have hnone : chunks p tail = [] := by
    induction tail with
    | nil => exact chunks_nil
    | cons a l ih =>
        rw [chunks_cons_of_neg l (htail a List.mem_cons_self)]
        exact ih fun b hb => htail b (List.mem_cons_of_mem a hb)
  induction ts using join.induct with
  | case1 => exact hnone
  | case2 t =>
      obtain ⟨hne, hp⟩ := hts t List.mem_cons_self
      rw [join, chunks_append hne hp fun a ha => htail a (List.mem_of_mem_head? ha), hnone]
  | case3 t t' ts ih =>
      obtain ⟨hne, hp⟩ := hts t List.mem_cons_self
      rw [join, chunks_append hne hp fun a ha => by cases ha; exact hsep, chunks_cons_of_neg _ hsep,
        ih fun x hx => hts x (List.mem_cons_of_mem t hx)]

end Lib

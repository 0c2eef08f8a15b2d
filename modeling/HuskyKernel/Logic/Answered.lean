import HuskyKernel.Logic.Service

/-!
# Logic/Answered — a log, with what was answered

What is asked is answered by everything done before: `f log i` is the answer to `i` behind `log`.
`answered f log` pairs every entry of a log with its answer, so that a statement about what a client
has seen is one about this list.  `since_append`, `not_since_append`: what has happened since can
only have happened in what is new, or before it.
-/

variable {ι ω : Type*} {f : List ι → ι → ω} {P Q : ι × ω → Prop} {log l : List ι} {i : ι}

/-- The entries of `l` with their answers, `log` having been done before. -/
def answeredFrom (f : List ι → ι → ω) : List ι → List ι → List (ι × ω)
  | _, [] => []
  | log, i :: l => (i, f log i) :: answeredFrom f (log ++ [i]) l

/-- The entries of a log with their answers. -/
def answered (f : List ι → ι → ω) (log : List ι) : List (ι × ω) := answeredFrom f [] log

namespace Answered

theorem from_append (log l l' : List ι) :
    answeredFrom f log (l ++ l') = answeredFrom f log l ++ answeredFrom f (log ++ l) l' := by
  induction l generalizing log with
  | nil => rw [List.append_nil]; rfl
  | cons i l ih =>
    rw [List.cons_append, answeredFrom, ih, answeredFrom, List.append_assoc]
    rfl

/-- One entry more. -/
theorem concat (log : List ι) (i : ι) :
    answered f (log ++ [i]) = answered f log ++ [(i, f log i)] := by
  rw [answered, from_append]
  rfl

@[simp] theorem nil : answered f [] = [] := rfl

/-- What holds since, behind one more entry. -/
theorem since_concat : Since P Q (answered f (log ++ [i])) ↔
    P (i, f log i) ∨ Since P Q (answered f log) ∧ ¬ Q (i, f log i) := by
  rw [concat, Since.concat]

/-- **Behind what is new**: it has happened there, or before. -/
theorem since_append (h : Since P Q (answered f (log ++ l))) :
    (∃ i ∈ l, ∃ a, P (i, a)) ∨ Since P Q (answered f log) := by
  induction l using List.reverseRecOn with
  | nil => exact .inr (List.append_nil log ▸ h)
  | append_singleton l i ih =>
    rw [← List.append_assoc, since_concat] at h
    rcases h with h | ⟨h, -⟩
    · exact .inl ⟨i, List.mem_append_right l (List.mem_singleton_self i), _, h⟩
    · exact (ih h).imp_left fun ⟨j, hj, hP⟩ => ⟨j, List.mem_append_left _ hj, hP⟩

/-- **What ended it ended it for good**, until it happens anew. -/
theorem not_since_append (hQ : Q (i, f log i)) (hP : ∀ j ∈ i :: l, ∀ a, ¬ P (j, a)) :
    ¬ Since P Q (answered f (log ++ i :: l)) := by
  intro h
  rw [show log ++ i :: l = (log ++ [i]) ++ l by rw [List.append_assoc]; rfl] at h
  rcases since_append h with ⟨j, hj, a, hPj⟩ | h
  · exact hP j (List.mem_cons_of_mem i hj) a hPj
  · rcases since_concat.mp h with hPi | ⟨-, hnot⟩
    · exact hP i List.mem_cons_self _ hPi
    · exact hnot hQ

end Answered

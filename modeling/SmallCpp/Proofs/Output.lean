import SmallCpp.Output

/-!
# The text of an output

An output keeps its completed lines and the fragments of the one that is not completed, but all that
matters is the text that was written: a line end counts as a line feed, and it does not matter how
the text was divided among the writes.

## Main results

* `Output.render_additions` — **the text alone decides the lines and what is shown.**
-/

namespace SmallCpp.Output

/-- What is added to an output at once. -/
inductive Addition
  | write (text : CodeText)
  | endLine
deriving DecidableEq, Repr

namespace Addition

def text : Addition → CodeText
  | write text => text
  | endLine => [lineFeed]

def apply (o : Output) : Addition → Output
  | write text => o.write text
  | endLine => o.endLine

end Addition

/-- The output after some additions to an empty one. -/
def additions (as : List Addition) : Output :=
  as.foldl Addition.apply {}

/-- The completed lines and the one that is not completed. -/
def segments (o : Output) : List CodeText :=
  o.lines.toList ++ [o.pending]

/-- The text of an output. -/
def written (o : Output) : CodeText :=
  [lineFeed].intercalate o.segments

/-- A line feed divides lines and is in none of them, and no fragment that is kept is empty. -/
structure Divided (o : Output) : Prop where
  segments : ∀ l ∈ o.segments, lineFeed ∉ l
  fragments : ∀ f ∈ o.fragments.toList, f ≠ []

/-! ### One addition -/

variable {o : Output} {ls : List CodeText}

theorem intercalate_concat (h : ls ≠ []) (c : CodePoint) (l : CodeText) :
    [c].intercalate (ls ++ [l]) = [c].intercalate ls ++ c :: l := by
  induction ls with
  | nil => exact absurd rfl h
  | cons l₀ ls ih =>
    cases ls with
    | nil => simp
    | cons l₁ ls => simpa using ih (List.cons_ne_nil l₁ ls)

theorem intercalate_concat_append (c : CodePoint) (l r : CodeText) :
    [c].intercalate (ls ++ [l ++ r]) = [c].intercalate (ls ++ [l]) ++ r := by
  by_cases hls : ls = []
  · simp [hls]
  · simp [intercalate_concat hls]

theorem segments_endLine (o : Output) : o.endLine.segments = o.segments ++ [[]] := by
  simp [segments, endLine, pending]

theorem pending_add (o : Output) (fragment : CodeText) :
    (o.add fragment).pending = o.pending ++ fragment := by
  simp [pending, add]

theorem segments_add (o : Output) (fragment : CodeText) :
    (o.add fragment).segments = o.lines.toList ++ [o.pending ++ fragment] := by
  rw [segments, pending_add, add]

theorem written_endLine (o : Output) : o.endLine.written = o.written ++ [lineFeed] := by
  rw [written, segments_endLine, intercalate_concat (by simp [segments])]
  rfl

theorem written_add (o : Output) (fragment : CodeText) :
    (o.add fragment).written = o.written ++ fragment := by
  rw [written, segments_add, intercalate_concat_append]
  rfl

theorem not_mem_pending_add {fragment : CodeText} (h : o.Divided)
    (hfragment : lineFeed ∉ fragment) :
    ∀ l ∈ (o.add fragment).segments, lineFeed ∉ l := by
  have hpending : lineFeed ∉ o.pending := h.segments _ (by simp [Output.segments])
  intro l hl
  rw [segments_add] at hl
  rcases List.mem_append.mp hl with hl | hl
  · exact h.segments l (List.mem_append_left _ hl)
  · rw [List.mem_singleton.mp hl, List.mem_append, not_or]
    exact ⟨hpending, hfragment⟩

theorem Divided.add {fragment : CodeText} (h : o.Divided) (hne : fragment ≠ [])
    (hfragment : lineFeed ∉ fragment) :
    (o.add fragment).Divided := by
  refine ⟨not_mem_pending_add h hfragment, fun f hf => ?_⟩
  rw [Output.add, Array.toList_push, List.mem_append, List.mem_singleton] at hf
  rcases hf with hf | rfl
  · exact h.fragments f hf
  · exact hne

theorem divided_endLine (h : ∀ l ∈ o.segments, lineFeed ∉ l) : o.endLine.Divided := by
  refine ⟨fun l hl => ?_, fun f hf => absurd hf (by simp [endLine])⟩
  rw [segments_endLine] at hl
  rcases List.mem_append.mp hl with hl | hl
  · exact h l hl
  · simp [List.mem_singleton.mp hl]

/-! ### One write -/

theorem not_mem_of_mem_splitOn {c : CodePoint} {text part : CodeText} (h : part ∈ text.splitOn c) :
    c ∉ part := by
  induction text generalizing part with
  | nil => simp_all
  | cons a text ih =>
    rw [List.splitOn, List.splitOnP_cons_eq_if_modifyHead, ← List.splitOn] at h
    split at h
    · rcases List.mem_cons.mp h with rfl | h
      · exact List.not_mem_nil
      · exact ih h
    · next ha =>
      obtain ⟨first, more, hsplit⟩ := List.exists_cons_of_ne_nil (List.splitOn_ne_nil c text)
      rw [hsplit] at ih h
      rcases List.mem_cons.mp h with rfl | h
      · intro hmem
        rcases List.mem_cons.mp hmem with rfl | hmem
        · exact ha (beq_self_eq_true _)
        · exact ih List.mem_cons_self hmem
      · exact ih (List.mem_cons_of_mem _ h)

variable {parts : List CodeText}

/-- Parts that a line feed ends complete a line each. -/
theorem written_complete (o : Output) (parts : List CodeText) :
    (parts.foldl (fun o part => (o.add part).endLine) o).written = o.written ++
    parts.flatMap (· ++ [lineFeed]) := by
  induction parts generalizing o with
  | nil => simp
  | cons part parts ih =>
    rw [List.foldl_cons, ih, written_endLine, written_add, List.flatMap_cons]
    simp

theorem divided_complete (h : o.Divided) (hparts : ∀ part ∈ parts, lineFeed ∉ part) :
    (parts.foldl (fun o part => (o.add part).endLine) o).Divided := by
  induction parts generalizing o with
  | nil => exact h
  | cons part parts ih =>
    rw [List.forall_mem_cons] at hparts
    exact ih (divided_endLine (not_mem_pending_add h hparts.1)) hparts.2

theorem intercalate_eq_flatMap (parts : List CodeText) (rest : CodeText) (c : CodePoint) :
    [c].intercalate (parts ++ [rest]) = parts.flatMap (· ++ [c]) ++ rest := by
  induction parts with
  | nil => simp
  | cons part parts ih =>
    rw [List.flatMap_cons, List.append_assoc, ← ih]
    cases parts <;> simp

/-- A text is divided into the parts that a line feed ends and the rest. -/
theorem exists_splitOn (text : CodeText) : ∃ parts rest, text.splitOn lineFeed = parts ++ [rest] ∧
    text = parts.flatMap (· ++ [lineFeed]) ++ rest ∧ (∀ part ∈ parts, lineFeed ∉ part) ∧
    lineFeed ∉ rest := by
  obtain ⟨parts, rest, hsplit⟩ := (List.eq_nil_or_concat (text.splitOn lineFeed)).resolve_left
    (List.splitOn_ne_nil lineFeed text)
  rw [List.concat_eq_append] at hsplit
  have hfree : ∀ part ∈ parts ++ [rest], lineFeed ∉ part := fun part hpart =>
    not_mem_of_mem_splitOn (hsplit ▸ hpart)
  refine ⟨parts, rest, hsplit, ?_, fun part hpart => ?_, ?_⟩
  · rw [← intercalate_eq_flatMap, ← hsplit, List.intercalate_splitOn]
  · exact hfree part (List.mem_append_left _ hpart)
  · exact hfree rest (by simp)

theorem written_write (o : Output) (text : CodeText) :
    (o.write text).written = o.written ++ text := by
  obtain ⟨parts, rest, hsplit, htext, -⟩ := exists_splitOn text
  have hcomp := written_complete o parts
  simp only [write, hsplit, List.dropLast_concat, List.getLastD_concat]
  rw [htext, ← List.append_assoc, ← hcomp]
  split
  · next hrest => rw [List.isEmpty_iff.mp hrest, List.append_nil]
  · exact written_add _ _

theorem Divided.write (h : o.Divided) (text : CodeText) : (o.write text).Divided := by
  obtain ⟨parts, rest, hsplit, -, hparts, hrest⟩ := exists_splitOn text
  have hcomp := divided_complete h hparts
  simp only [Output.write, hsplit, List.dropLast_concat, List.getLastD_concat]
  split
  · exact hcomp
  · next hne => exact hcomp.add (by simpa using hne) hrest

theorem written_apply (o : Output) (a : Addition) : (a.apply o).written = o.written ++ a.text := by
  cases a with
  | write text => exact written_write o text
  | endLine => exact written_endLine o

theorem Divided.apply (h : o.Divided) (a : Addition) : (a.apply o).Divided := by
  cases a with
  | write text => exact h.write text
  | endLine => exact divided_endLine h.segments

/-! ### All additions -/

theorem written_foldl (as : List Addition) (o : Output) :
    (as.foldl Addition.apply o).written = o.written ++ as.flatMap Addition.text := by
  induction as generalizing o with
  | nil => simp
  | cons a as ih => rw [List.foldl_cons, ih, written_apply, List.append_assoc, List.flatMap_cons]

theorem Divided.foldl (h : o.Divided) (as : List Addition) :
    (as.foldl Addition.apply o).Divided := by
  induction as generalizing o with
  | nil => exact h
  | cons a as ih => exact ih (h.apply a)

theorem written_additions (as : List Addition) :
    (additions as).written = as.flatMap Addition.text :=
  written_foldl as {}

theorem divided_additions (as : List Addition) : (additions as).Divided := by
  have hemp : Divided {} := ⟨by simp [segments, pending], by simp⟩
  exact hemp.foldl as

theorem splitOn_written (h : o.Divided) : o.written.splitOn lineFeed = o.segments :=
  List.splitOn_intercalate lineFeed h.segments (by simp [segments])

/-- What is shown is the text without a line feed at its end, or a notice if there is no text. -/
theorem render_eq (h : o.Divided) :
    o.render = if o.written = [] then CodeText.ofString nothing
      else if o.written.getLast? = some lineFeed then o.written.dropLast else o.written := by
  by_cases hemp : o.fragments.isEmpty
  · have hpending : o.pending = [] := by
      rw [pending, Array.isEmpty_iff.mp hemp]
      rfl
    by_cases hlines : o.lines.toList = []
    · simp [render, written, segments, hemp, hpending, hlines]
    · -- The last line is completed, so the text ends with the line feed behind it.
      have hwritten : o.written = [lineFeed].intercalate o.lines.toList ++ [lineFeed] := by
        rw [written, segments, hpending, intercalate_concat hlines]
      have hsome : o.lines ≠ #[] := fun heq => hlines (by rw [heq])
      simp [render, hemp, hsome, hwritten]
  · -- A fragment is kept, so the text ends with a character of it.
    have hpending : o.pending ≠ [] := by
      intro hnil
      obtain ⟨f, hf⟩ := List.exists_mem_of_ne_nil o.fragments.toList (by simpa using hemp)
      exact h.fragments f hf (List.flatten_eq_nil_iff.mp hnil f hf)
    obtain ⟨cs, c, hpending⟩ := (List.eq_nil_or_concat o.pending).resolve_left hpending
    have hsegs : o.segments = o.lines.toList ++ [cs ++ [c]] := by
      rw [segments, hpending, List.concat_eq_append]
    have hc : c ≠ lineFeed := by
      rintro rfl
      exact h.segments (cs ++ [lineFeed]) (by simp [hsegs]) (by simp)
    have hrender : o.render = o.written := by
      simp [render, written, segments, hemp]
    have hwritten : o.written = [lineFeed].intercalate (o.lines.toList ++ [cs]) ++ [c] := by
      rw [written, hsegs, intercalate_concat_append]
    rw [hrender, hwritten]
    simp [hc]

/-- **The text alone decides the lines and what is shown.**  After any writes and line ends the
completed lines are the parts of the text that end with a line feed, without it; what is shown is
the text without a line feed at its end, or the notice if there is no text; and additions leave the
same lines, with the one that is not completed, exactly if their texts, one after another, are the
same. -/
theorem render_additions (as : List Addition) :
    let text := as.flatMap Addition.text
    (additions as).lines.toList = (text.splitOn lineFeed).dropLast ∧
    (additions as).render = (if text = [] then CodeText.ofString nothing
      else if text.getLast? = some lineFeed then text.dropLast else text) ∧
    ∀ bs : List Addition, (additions bs).lines = (additions as).lines ∧
      (additions bs).pending = (additions as).pending ↔ bs.flatMap Addition.text = text := by
  intro text
  have htext : (additions as).written = text := written_additions as
  have hdivided := divided_additions as
  refine ⟨?_, ?_, fun bs => ⟨fun ⟨hlines, hpending⟩ => ?_, fun heq => ?_⟩⟩
  · rw [← htext, splitOn_written hdivided]
    simp [segments]
  · rw [← htext]
    exact render_eq hdivided
  · rw [← written_additions bs, ← htext, written, written, segments, segments, hlines, hpending]
  · have hsegs : (additions bs).segments = (additions as).segments := by
      rw [← splitOn_written (divided_additions bs), ← splitOn_written hdivided,
        written_additions bs, heq, htext]
    obtain ⟨hlines, hpending⟩ := List.append_inj' hsegs rfl
    exact ⟨Array.toList_inj.mp hlines, List.singleton_inj.mp hpending⟩

-- the fragments of a line may differ
example : additions [.write [.ofChar 'a'], .write [.ofChar 'b']] ≠ additions
    [.write [.ofChar 'a', .ofChar 'b']] := by
  decide

end SmallCpp.Output

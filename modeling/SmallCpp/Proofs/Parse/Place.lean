import SmallCpp.Proofs.Parse.ErrorPlace

/-!
# Places and offsets

The place of an offset is looked up in the table of the line starts of a normalized text.  What is
found there agrees with the lines of the text and orders the tokens of a source.

## Main results

* `offset_place` — **an offset has the line and the column at which its character stands**.
-/

namespace SmallCpp

/-- **An offset has the line and the column at which its character stands.**  In a normalized text,
the line of an offset is one more than the number of line feeds in front of it, and the column
counts from the offset right behind the last of these; the text has such a line, and with its line
feed restored it has at this column the character at the offset.  Later offsets have later places,
and every token has the place of its offset. -/
theorem offset_place (text file : String) :
    let cs := Source.normalize text
    (∀ p ≤ cs.length, ∃ start line, start ≤ p ∧ (start = 0 ∨ cs[start - 1]? = some '\n') ∧
      (∀ i, start ≤ i → i < p → cs[i]? ≠ some '\n') ∧
      Source.locate cs p = ⟨1 + (cs.take p).count '\n', p - start + 1⟩ ∧
      Source.lineAt? (Source.ofText text file).texts (Source.locate cs p).line = some line ∧
      (p < cs.length → (line.toList ++ ['\n'])[(Source.locate cs p).column - 1]? = cs[p]?)) ∧
    (∀ p q, p < q → q ≤ cs.length → (Source.locate cs p).Before (Source.locate cs q)) ∧
    ∀ tokens, (Source.ofText text file).tokenize = .ok tokens →
      (∀ t ∈ tokens, t.offset ≤ cs.length ∧ t.position = Source.locate cs t.offset) ∧
      ∀ t ∈ tokens, ∀ u ∈ tokens, t.offset < u.offset → t.position.Before u.position := by
  intro cs
  refine ⟨fun p hp => ?_, fun p q hpq _ => Source.locate_before cs hpq, fun tokens htoks => ?_⟩
  · obtain ⟨start, ⟨hstart, hfeed, hnone⟩, hlen⟩ := Source.isLineStart_lineBefore hp
    have hplace := Source.locate_eq hp
    rw [hlen, Nat.add_comm _ 1] at hplace
    have hline : Source.lineAt? (Source.ofText text file).texts (Source.locate cs p).line =
        some (String.ofList (Source.lineBefore cs p ++ Source.lineBehind cs p)) :=
      Source.lineAt?_locate hp
    refine ⟨start, _, hstart, hfeed, hnone, hplace, hline, fun hlt => ?_⟩
    rw [hplace, Nat.add_sub_cancel, ← hlen, String.toList_ofList, List.append_assoc,
      List.getElem?_append_right (Nat.le_refl _), Nat.sub_self]
    exact Source.getElem?_lineBehind hlt
  · have hplaced := Source.placedIn_of_tokenize htoks
    refine ⟨fun t ht => ⟨(hplaced t ht).le, (hplaced t ht).position⟩, fun t ht u hu hlt => ?_⟩
    rw [(hplaced t ht).position, (hplaced u hu).position]
    exact Source.locate_before cs hlt

end SmallCpp

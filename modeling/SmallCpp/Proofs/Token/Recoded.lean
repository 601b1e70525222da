import Mathlib.Logic.Relation
import SmallCpp.Proofs.Source
import SmallCpp.Token.Lexer

/-!
# Sources with other line ends

A text may end its lines with carriage returns, alone or with line feeds, and may hold characters of
no width: its tokens do not show it.  A character of no width goes unnoticed wherever it does not
part a carriage return from its line feed, where it would make two line ends of one.

## Main results

* `tokenize_recoded` — **line ends and characters of no width have no effect on the tokens**.
-/

namespace SmallCpp

/-- What a line may end with in the place of a line feed. -/
inductive LineEnd where
  | carriageReturn
  /-- A carriage return and a line feed. -/
  | both
deriving DecidableEq, Repr, Inhabited

namespace LineEnd

def chars : LineEnd → List Char
  | carriageReturn => ['\r']
  | both => ['\r', '\n']

/-- The text with this line end for every line feed. -/
def recode (e : LineEnd) (cs : List Char) : List Char :=
  cs.flatMap fun c => if c = '\n' then e.chars else [c]

end LineEnd

namespace Source

variable {front back cs ds : List Char}

/-! ### Other line ends -/

theorem unifyLineEnds_recode (e : LineEnd) (h : '\r' ∉ cs) : unifyLineEnds (e.recode cs) = cs := by
  induction cs with
  | nil => rfl
  | cons c cs ih =>
    obtain ⟨hc, hcs⟩ := List.ne_and_not_mem_of_not_mem_cons h
    have hone : unifyLineEnds (e.recode [c]) = [c] := by
      by_cases hline : c = '\n'
      · cases e <;> rw [hline] <;> rfl
      · simp [LineEnd.recode, hline, unifyLineEnds_cons (Ne.symm hc), unifyLineEnds]
    have hcut : IsCut (e.recode [c]) (e.recode cs) := by
      intro hlast hfeed
      by_cases hline : c = '\n'
      · cases e with
        | carriageReturn =>
          obtain ⟨d, -, hd⟩ := List.mem_flatMap.mp (List.mem_of_mem_head? hfeed)
          split at hd
          · simp [LineEnd.chars] at hd
          · next hd' => exact hd' (List.mem_singleton.mp hd).symm
        | both => simp [LineEnd.recode, LineEnd.chars, hline] at hlast
      · simp [LineEnd.recode, hline, Ne.symm hc] at hlast
    rw [show e.recode (c :: cs) = e.recode [c] ++ e.recode cs by simp [LineEnd.recode],
      unifyLineEnds_append hcut, hone, ih hcs]
    rfl

/-! ### Characters of no width -/

/-- A character of no width is inserted, though not between a carriage return and its line feed. -/
inductive Widens : List Char → List Char → Prop where
  | intro (front back : List Char) (c : Char) : isZeroWidth c = true → IsCut front back →
      Widens (front ++ back) (front ++ c :: back)

theorem Widens.filter_unifyLineEnds (h : Widens cs ds) :
    (unifyLineEnds ds).filter (!isZeroWidth ·) = (unifyLineEnds cs).filter (!isZeroWidth ·) := by
  obtain ⟨front, back, c, hwidth, hcut⟩ := h
  have hret : c ≠ '\r' := by rintro rfl; simp [isZeroWidth] at hwidth
  have hfeed : IsCut front (c :: back) := by
    rintro - hc
    obtain rfl := Option.some.inj hc
    simp [isZeroWidth] at hwidth
  rw [unifyLineEnds_append hcut, unifyLineEnds_append hfeed, unifyLineEnds_cons hret,
    List.filter_append,
    List.filter_append, List.filter_cons_of_neg (by simp [hwidth])]

/-- **Inserted characters of no width go unnoticed.** -/
theorem normalize_of_widened {s t : String} (h : Relation.ReflTransGen Widens s.toList t.toList) :
    normalize t = normalize s := by
  rw [normalize_eq, normalize_eq]
  generalize t.toList = ds at h ⊢
  induction h with
  | refl => rfl
  | tail _ hstep ih => exact hstep.filter_unifyLineEnds.trans ih

-- between the two the character is noticed: there is one line more
example : normalize "\r\u200b\n" = ['\n', '\n'] ∧ normalize "\r\n" = ['\n'] := by decide

end Source

/-- **Line ends and characters of no width have no effect on the tokens.**  A text without carriage
returns may get another line end for each of its line feeds, and then any number of characters of no
width anywhere but between a carriage return and its line feed: it is normalized to the same text,
its own characters that have a width, and has the same tokens at the same places, or the same error.
A normalized text is not normalized any further. -/
theorem tokenize_recoded (s t file : String) :
    (∀ e : LineEnd, '\r' ∉ s.toList → Relation.ReflTransGen Source.Widens (e.recode s.toList)
      t.toList →
      Source.normalize t = Source.normalize s ∧
        Source.normalize s = s.toList.filter (!Source.isZeroWidth ·) ∧
        (Source.ofText t file).tokenize = (Source.ofText s file).tokenize) ∧
    Source.normalize (String.ofList (Source.normalize s)) = Source.normalize s := by
  constructor
  · intro e hs ht
    have hwidened : Source.normalize t = Source.normalize (String.ofList (e.recode s.toList)) :=
      Source.normalize_of_widened (by rwa [String.toList_ofList])
    have hown : Source.normalize s = s.toList.filter (!Source.isZeroWidth ·) := by
      rw [Source.normalize_eq, Source.unifyLineEnds_of_not_mem hs]
    have hsame : Source.normalize t = Source.normalize s := by
      rw [hwidened, hown, Source.normalize_eq, String.toList_ofList,
        Source.unifyLineEnds_recode e hs]
    exact ⟨hsame, hown, by rw [Source.ofText, Source.ofText, hsame]⟩
  · have hclean : ∀ c ∈ (String.ofList (Source.normalize s)).toList, Source.IsClean c := by
      rw [String.toList_ofList]
      exact fun c => Source.isClean_of_mem_normalize
    rw [Source.normalize_of_isClean hclean, String.toList_ofList]

theorem tokenize_recoded_marked :
    let s := "a\n\nb"
    let t := "\ufeffa\r\n\u200b\r\nb"
    '\r' ∉ s.toList ∧ Relation.ReflTransGen Source.Widens (LineEnd.both.recode s.toList) t.toList ∧
      Source.normalize t = Source.normalize s ∧ Source.normalize s = s.toList ∧
      (Source.ofText t "marked").tokenize = (Source.ofText s "marked").tokenize := by
  intro s t
  have hret : '\r' ∉ s.toList := by decide
  have hrecode : LineEnd.both.recode s.toList =
    [] ++ ['a', '\r', '\n', '\r', '\n', 'b'] := by decide
  have ht : t.toList = ['\ufeff', 'a', '\r', '\n'] ++ '\u200b' :: ['\r', '\n', 'b'] := by decide
  have hwidened : Relation.ReflTransGen Source.Widens (LineEnd.both.recode s.toList) t.toList := by
    rw [hrecode, ht]
    refine .tail (.single (.intro [] _ '\ufeff' (by decide) nofun)) ?_
    exact .intro ['\ufeff', 'a', '\r', '\n'] ['\r', '\n', 'b'] '\u200b' (by decide) (by decide)
  obtain ⟨hsame, hown, htoks⟩ := (tokenize_recoded s t "marked").1 .both hret hwidened
  exact ⟨hret, hwidened, hsame, by rw [hown]; decide, htoks⟩

end SmallCpp

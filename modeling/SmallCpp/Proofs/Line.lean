import Mathlib.Data.List.DropRight
import SmallCpp.Source

/-!
# Lines and offsets

The place of an offset is looked up in the table of the offsets at which the lines begin.  The table
is sorted, so halving finds the number of lines that begin up to the offset, which is one more than
the number of line feeds in front of it.  The lines of the text are split off on their own, and
agree with the table at every offset: on a line feed, right behind one, in an empty line and at the
end of the text. -/

namespace SmallCpp

/-- The place stands before another one, by lines and then by columns. -/
def Position.Before (a b : Position) : Prop :=
  a.line < b.line ∨ a.line = b.line ∧ a.column < b.column

namespace Source

variable {table : Array Nat} {cs front rest : List Char} {x p q k start : Nat}

/-! ### Halving -/

/-- The entries of the table grow with their index. -/
def Ascending (table : Array Nat) : Prop :=
  ∀ i j, i < j → j < table.size → table.getD i 0 < table.getD j 0

/-- The table is parted at `k`: the entries before `k` are at most `x`, the others are larger. -/
structure Parts (table : Array Nat) (x k : Nat) : Prop where
  le : k ≤ table.size
  before : ∀ i < k, table.getD i 0 ≤ x
  behind : ∀ i, k ≤ i → i < table.size → x < table.getD i 0

theorem parts_bisectFrom (hsorted : Ascending table) (rounds low high : Nat)
    (hrounds : high - low ≤ rounds)
    (hhigh : high ≤ table.size) (hbefore : ∀ i < low, table.getD i 0 ≤ x) (hlow : low ≤ high)
    (hbehind : ∀ i, high ≤ i → i < table.size → x < table.getD i 0) :
    Parts table x (bisectFrom table x rounds low high) := by
  -- the entries outside the range are on their sides; the range shrinks in every round
  induction rounds generalizing low high with
  | zero =>
    exact ⟨by rw [bisectFrom]; omega, hbefore,
      fun i hi => hbehind i (by rw [bisectFrom] at hi; omega)⟩
  | succ rounds ih =>
    rw [bisectFrom]
    split
    · next hlt =>
      dsimp only
      split
      · next hless =>
        refine ih low _ (by omega) (by omega) hbefore (by omega) fun i hi hsize => ?_
        rcases Nat.eq_or_lt_of_le hi with rfl | hi
        · exact hless
        · exact hless.trans (hsorted _ i hi hsize)
      · next hless =>
        refine ih _ high (by omega) hhigh (fun i hi => ?_) (by omega) hbehind
        rcases Nat.eq_or_lt_of_le (Nat.lt_succ_iff.mp hi) with rfl | hi
        · exact Nat.not_lt.mp hless
        · exact (hsorted i _ hi (by omega)).le.trans (Nat.not_lt.mp hless)
    · next hlt => exact ⟨by omega, hbefore, fun i hi => hbehind i (by omega)⟩

theorem parts_bisect (hsorted : Ascending table) (x : Nat) : Parts table x (bisect table x) :=
  parts_bisectFrom hsorted _ 0 _ (Nat.sub_le _ _) (Nat.le_refl _)
    (fun _ hi => absurd hi (Nat.not_lt_zero _))
    (Nat.zero_le _) fun _ hi hsize => absurd hsize (Nat.not_lt.mpr hi)

/-- A table is parted behind the entries that are at most `x`. -/
theorem Parts.countP_eq (h : Parts table x k) : table.toList.countP (· ≤ x) = k := by
  have hget : ∀ {i} (hi : i < table.toList.length), table.toList[i] = table.getD i 0 := by
    intro i hi
    have hsize : i < table.size := by simpa using hi
    simp [Array.getD, hsize]
  have hfront : (table.toList.take k).countP (· ≤ x) = k := by
    have hlen : (table.toList.take k).length = k := by simp [h.le]
    refine (List.countP_eq_length.mpr fun y hy => ?_).trans hlen
    obtain ⟨i, hi, rfl⟩ := List.getElem_of_mem hy
    rw [hlen] at hi
    rw [List.getElem_take, hget]
    simpa using h.before i hi
  have hback : (table.toList.drop k).countP (· ≤ x) = 0 := by
    refine List.countP_eq_zero.mpr fun y hy => ?_
    obtain ⟨i, hi, rfl⟩ := List.getElem_of_mem hy
    rw [List.length_drop, Array.length_toList] at hi
    rw [List.getElem_drop, hget]
    simpa using h.behind (k + i) (by omega) (by omega)
  rw [← List.take_append_drop k table.toList, List.countP_append, hfront, hback, Nat.add_zero]

/-! ### The table of line starts -/

/-- The offsets right behind the line feeds of a text that begins at the offset `n`. -/
def startsBehind (n : Nat) (cs : List Char) : List Nat :=
  (cs.zipIdx n).filterMap fun (c, i) => if c == '\n' then some (i + 1) else none

theorem toList_lineStarts (cs : List Char) : (lineStarts cs).toList = 0 :: startsBehind 0 cs :=
  rfl

theorem startsBehind_cons (n : Nat) (c : Char) (cs : List Char) : startsBehind n (c :: cs) =
    if c = '\n' then (n + 1) :: startsBehind (n + 1) cs else startsBehind (n + 1) cs := by
  by_cases hc : c = '\n' <;> simp [startsBehind, hc]

theorem mem_startsBehind {n : Nat} :
    start ∈ startsBehind n cs ↔ ∃ i, cs[i]? = some '\n' ∧ start = n + i + 1 := by
  induction cs generalizing n with
  | nil => simp [startsBehind]
  | cons c cs ih =>
    have hhead : start ∈ startsBehind n (c :: cs) ↔
        c = '\n' ∧ start = n + 1 ∨ start ∈ startsBehind (n + 1) cs := by
      rw [startsBehind_cons]
      by_cases hc : c = '\n' <;> simp [hc]
    rw [hhead, ih]
    constructor
    · rintro (⟨rfl, rfl⟩ | ⟨i, hi, rfl⟩)
      · exact ⟨0, rfl, rfl⟩
      · exact ⟨i + 1, hi, by omega⟩
    · rintro ⟨_ | i, hi, rfl⟩
      · exact .inl ⟨by simpa using hi, rfl⟩
      · exact .inr ⟨i, hi, by omega⟩

theorem pairwise_startsBehind (n : Nat) (cs : List Char) :
    (startsBehind n cs).Pairwise (· < ·) := by
  induction cs generalizing n with
  | nil => exact .nil
  | cons c cs ih =>
    rw [startsBehind_cons]
    split
    · refine .cons (fun start hstart => ?_) (ih (n + 1))
      obtain ⟨i, -, rfl⟩ := mem_startsBehind.mp hstart
      omega
    · exact ih (n + 1)

theorem countP_startsBehind (n p : Nat) (cs : List Char) :
    (startsBehind n cs).countP (· ≤ n + p) = (cs.take p).count '\n' := by
  induction cs generalizing n p with
  | nil => simp [startsBehind]
  | cons c cs ih =>
    cases p with
    | zero =>
      refine List.countP_eq_zero.mpr fun start hstart => ?_
      obtain ⟨i, -, rfl⟩ := mem_startsBehind.mp hstart
      simp only [decide_eq_true_eq]
      omega
    | succ p =>
      have htail := ih (n + 1) p
      rw [Nat.add_right_comm] at htail
      rw [startsBehind_cons, List.take_succ_cons, ← Nat.add_assoc]
      by_cases hc : c = '\n'
      · simp [hc, htail, Nat.add_le_add_right (Nat.le_add_right n p) 1]
      · simp [hc, htail]

theorem ascending_lineStarts (cs : List Char) : Ascending (lineStarts cs) := by
  have hpairwise : (lineStarts cs).toList.Pairwise (· < ·) := by
    refine .cons (fun start hstart => ?_) (pairwise_startsBehind 0 cs)
    obtain ⟨i, -, rfl⟩ := mem_startsBehind.mp hstart
    omega
  intro i j hij hj
  have hlt := List.pairwise_iff_getElem.mp hpairwise i j (by simp; omega) (by simpa using hj) hij
  simpa [Array.getD, hj, hij.trans hj] using hlt

/-- The lines that begin up to an offset are one more than the line feeds in front of it. -/
theorem bisect_lineStarts (cs : List Char) (p : Nat) :
    bisect (lineStarts cs) p = (cs.take p).count '\n' + 1 := by
  have hcnt := countP_startsBehind 0 p cs
  rw [Nat.zero_add] at hcnt
  rw [← (parts_bisect (ascending_lineStarts cs) p).countP_eq, toList_lineStarts,
    List.countP_cons, hcnt]
  simp

/-! ### The start of a line -/

/-- The part of the line of an offset that stands in front of it. -/
def lineBefore (cs : List Char) (p : Nat) : List Char :=
  (cs.take p).rtakeWhile (· != '\n')

/-- The part of the line of an offset that stands behind it. -/
def lineBehind (cs : List Char) (p : Nat) : List Char :=
  (cs.drop p).takeWhile (· != '\n')

/-- The line of the offset `p` begins at `start`: with the text or right behind a line feed, with no
line feed from there to the offset. -/
structure IsLineStart (cs : List Char) (p start : Nat) : Prop where
  le : start ≤ p
  feed : start = 0 ∨ cs[start - 1]? = some '\n'
  none : ∀ i, start ≤ i → i < p → cs[i]? ≠ some '\n'

theorem IsLineStart.unique {start' : Nat} (h : IsLineStart cs p start)
    (h' : IsLineStart cs p start') :
    start = start' := by
  have hnot : ∀ {a b}, IsLineStart cs p a → IsLineStart cs p b → ¬ a < b := by
    intro a b ha hb hlt
    rcases hb.feed with rfl | hfeed
    · exact absurd hlt (Nat.not_lt_zero a)
    · have hle := hb.le
      exact ha.none (b - 1) (by omega) (by omega) hfeed
  exact Nat.le_antisymm (Nat.not_lt.mp (hnot h' h)) (Nat.not_lt.mp (hnot h h'))

theorem isLineStart_lineBefore (hp : p ≤ cs.length) :
    ∃ start, IsLineStart cs p start ∧ (lineBefore cs p).length = p - start := by
  induction p with
  | zero => exact ⟨0, ⟨Nat.le_refl 0, .inl rfl, fun i _ hi => absurd hi (Nat.not_lt_zero i)⟩, rfl⟩
  | succ p ih =>
    obtain ⟨start, ⟨hstart, hfeed, hnone⟩, hlen⟩ := ih (Nat.le_of_succ_le hp)
    obtain ⟨c, hc⟩ : ∃ c, cs[p]? = some c := ⟨_, List.getElem?_eq_getElem hp⟩
    have htake : cs.take (p + 1) = cs.take p ++ [c] := by rw [List.take_add_one, hc]; rfl
    by_cases hline : c = '\n'
    · refine ⟨p + 1, ⟨Nat.le_refl _, .inr (by rw [Nat.add_sub_cancel, hc, hline]), fun i h h' => by
        omega⟩, ?_⟩
      simp [lineBefore, htake, hline]
    · refine ⟨start, ⟨hstart.trans (Nat.le_succ p), hfeed, fun i h h' => ?_⟩, ?_⟩
      · rcases Nat.lt_succ_iff_lt_or_eq.mp h' with hi | rfl
        · exact hnone i h hi
        · rw [hc]
          simpa using hline
      · have hlonger : lineBefore cs (p + 1) = lineBefore cs p ++ [c] := by
          simp [lineBefore, htake, hline]
        rw [hlonger, List.length_append, hlen, List.length_singleton]
        omega

/-- The last entry of the table up to an offset is the start of its line. -/
theorem isLineStart_getD (cs : List Char) (p : Nat) :
    IsLineStart cs p ((lineStarts cs).getD ((cs.take p).count '\n') 0) := by
  have hparts := parts_bisect (ascending_lineStarts cs) p
  rw [bisect_lineStarts] at hparts
  generalize (cs.take p).count '\n' = k at hparts
  have hsize : k < (lineStarts cs).size := hparts.le
  refine ⟨hparts.before k (Nat.lt_succ_self k), ?_, fun i hle hlt hfeed => ?_⟩
  · have hmem : (lineStarts cs).getD k 0 ∈ 0 :: startsBehind 0 cs := by
      rw [← toList_lineStarts, Array.mem_toList_iff]
      rw [Array.getD, dif_pos hsize]
      exact Array.getElem_mem hsize
    rcases List.mem_cons.mp hmem with hzero | hmem
    · exact .inl hzero
    · obtain ⟨i, hfeed, hent⟩ := mem_startsBehind.mp hmem
      exact .inr (by rw [hent, Nat.zero_add, Nat.add_sub_cancel, hfeed])
  · -- an entry right behind the line feed would stand between the start and the offset
    have hmem : i + 1 ∈ (lineStarts cs).toList :=
      List.mem_cons_of_mem _ (mem_startsBehind.mpr ⟨i, hfeed, by omega⟩)
    obtain ⟨j, hj, hent⟩ := List.getElem_of_mem hmem
    have hj' : j < (lineStarts cs).size := by simpa using hj
    have hent' : (lineStarts cs).getD j 0 = i + 1 := by simpa [Array.getD, hj'] using hent
    rcases Nat.lt_or_ge k j with hkj | hjk
    · have hbehind := hparts.behind j hkj hj'
      omega
    · rcases Nat.eq_or_lt_of_le hjk with rfl | hjk
      · omega
      · have hless := ascending_lineStarts cs j k hjk hsize
        omega

/-! ### The place of an offset -/

/-- **The place of an offset**: lines and columns are counted from one. -/
theorem locate_eq (hp : p ≤ cs.length) :
    locate cs p = ⟨(cs.take p).count '\n' + 1, (lineBefore cs p).length + 1⟩ := by
  obtain ⟨start, hstart, hlen⟩ := isLineStart_lineBefore hp
  rw [locate, placeOf, bisect_lineStarts, Nat.add_sub_cancel,
    (isLineStart_getD cs p).unique hstart, hlen]

/-- A place depends on the text in front of it only. -/
theorem locate_append (hp : p ≤ front.length) (rest : List Char) :
    locate (front ++ rest) p = locate front p := by
  have htake : (front ++ rest).take p = front.take p := List.take_append_of_le_length hp
  have hle : p ≤ (front ++ rest).length := by
    rw [List.length_append]
    exact hp.trans (Nat.le_add_right _ _)
  rw [locate_eq hp, locate_eq hle, lineBefore, lineBefore, htake]

theorem locate_of_not_mem (h : '\n' ∉ cs) (hp : p ≤ cs.length) : locate cs p = ⟨1, p + 1⟩ := by
  have hfront : '\n' ∉ cs.take p := fun hmem => h (List.mem_of_mem_take hmem)
  have hline : lineBefore cs p = cs.take p := by
    refine List.rtakeWhile_eq_self_iff.mpr fun c hc => ?_
    simpa using fun heq : c = '\n' => hfront (heq ▸ hc)
  rw [locate_eq hp, hline, List.count_eq_zero.mpr hfront, List.length_take, Nat.min_eq_left hp]

theorem locate_before (cs : List Char) (hpq : p < q) : (locate cs p).Before (locate cs q) := by
  have hstart := (isLineStart_getD cs p).le
  have hle : (cs.take p).count '\n' ≤ (cs.take q).count '\n' :=
    (List.take_sublist_take_left hpq.le).count_le '\n'
  simp only [Position.Before, locate, placeOf, bisect_lineStarts, Nat.add_sub_cancel]
  rcases Nat.eq_or_lt_of_le hle with heq | hlt
  · rw [← heq]
    omega
  · omega

/-! ### The text of a line -/

theorem lines_lineFeed (cs : List Char) : lines ('\n' :: cs) = [] :: lines cs := by
  rw [lines]
  rfl

theorem lines_cons {c : Char} (hc : c ≠ '\n') {cs line : List Char} {more : List (List Char)}
    (h : lines cs = line :: more) : lines (c :: cs) = (c :: line) :: more := by
  rw [lines, if_neg (by simpa using hc), h]

theorem exists_lines (cs : List Char) : ∃ more, lines cs = cs.takeWhile (· != '\n') :: more := by
  induction cs with
  | nil => exact ⟨[], rfl⟩
  | cons c cs ih =>
    by_cases hc : c = '\n'
    · subst hc
      exact ⟨lines cs, lines_lineFeed cs⟩
    · obtain ⟨more, hmore⟩ := ih
      exact ⟨more, by simp [lines_cons hc hmore, hc]⟩

theorem length_lines (cs : List Char) : (lines cs).length = cs.count '\n' + 1 := by
  induction cs with
  | nil => rfl
  | cons c cs ih =>
    by_cases hc : c = '\n'
    · subst hc
      simp [lines_lineFeed, ih]
    · obtain ⟨more, hmore⟩ := exists_lines cs
      rw [hmore] at ih
      simpa [lines_cons hc hmore, hc] using ih

theorem lines_append (x y : List Char) : lines (x ++ '\n' :: y) = lines x ++ lines y := by
  induction x with
  | nil => exact lines_lineFeed y
  | cons c x ih =>
    by_cases hc : c = '\n'
    · subst hc
      rw [List.cons_append, lines_lineFeed, lines_lineFeed, ih]
      rfl
    · obtain ⟨more, hmore⟩ := exists_lines x
      rw [hmore] at ih
      rw [List.cons_append, lines_cons hc ih, lines_cons hc hmore]
      rfl

/-- The line behind as many line feeds as a front has holds the end of the front. -/
theorem lines_getElem? (x y : List Char) :
    (lines (x ++ y))[x.count '\n']? =
      some (x.rtakeWhile (· != '\n') ++ y.takeWhile (· != '\n')) := by
  induction x using List.reverseRecOn generalizing y with
  | nil =>
    obtain ⟨more, hmore⟩ := exists_lines y
    simp [hmore]
  | append_singleton x c ih =>
    rw [List.append_assoc, List.singleton_append]
    by_cases hc : c = '\n'
    · subst hc
      obtain ⟨more, hmore⟩ := exists_lines y
      rw [lines_append, List.count_append, List.getElem?_append_right (by simp [length_lines])]
      simp [length_lines, hmore]
    · have hline := ih (c :: y)
      simpa [hc, List.rtakeWhile_concat] using hline

/-- **The line of an offset** is the one that its place names. -/
theorem lineAt?_locate (hp : p ≤ cs.length) : lineAt? (lineTexts cs) (locate cs p).line =
      some (String.ofList (lineBefore cs p ++ lineBehind cs p)) := by
  have hline := lines_getElem? (cs.take p) (cs.drop p)
  rw [List.take_append_drop] at hline
  rw [locate_eq hp, lineAt?, if_pos (by simp)]
  simp [lineTexts, hline, lineBefore, lineBehind]

/-- What stands at an offset is the next character of its line, or the line feed that ends it. -/
theorem getElem?_lineBehind (hp : p < cs.length) : (lineBehind cs p ++ ['\n'])[0]? = cs[p]? := by
  rw [lineBehind, List.drop_eq_getElem_cons hp, List.getElem?_eq_getElem hp]
  generalize cs[p] = c
  by_cases hline : c = '\n' <;> simp [hline]

end Source

end SmallCpp

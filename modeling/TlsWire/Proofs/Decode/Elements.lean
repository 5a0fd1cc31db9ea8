import TlsWire.Proofs.Run
import TlsWire.Proofs.WireForm

/-!
# Decoding element by element

What it takes to decode the content of a vector or map, or the elements of an array. A run over
them is described by the list of what it decodes: `Elements` for content that is used up, where
every element has to take up space and to fit under the limit, and `Items` for a given number of
elements, which need not.

* `Sequence.ofHead_ok` — opening a sequence reads a form of the head and splits off as much content
  as it states;
* `Sequence.fold_ok` — folding over a sequence succeeds exactly when there is a run over its
  elements and everything decoded can be added up;
* `Sequence.fold_error` — where folding fails, which is after a run over some of the elements;
* `Sequence.Yields.length_le`, `Sequence.exists_yields` — a run decodes no more elements than the
  content has bytes, and it comes to an end.
-/

namespace TlsWire

variable {α β σ : Type}

namespace Sequence

/-! ## Opening -/

theorem ofHead_ok {ctx : Context} {head : Head} {c c' : Cursor} {seq : Sequence} :
    ofHead ctx head c = .ok seq c' ↔
      ∃ h c₁ body, head.Form body.length h ∧ c.Advances h c₁ ∧ c₁.Advances body c' ∧
        (head = .unbounded → c'.rest = []) ∧
        seq = ⟨c₁.scope body, decide (head ≠ .unbounded), 0⟩ := by
  unfold ofHead
  cases head with
  | fixed width =>
    -- Each read is known by what it moves over. What is left is to name the parts.
    simp only [Decoder.bind_ok, Decoder.pure_ok, Decoder.read_ok, Uint.decode_ok, Cursor.split_ok]
    constructor
    · rintro ⟨_, c₁, ⟨hlt, hadv⟩, _, _, ⟨body, hbody, rfl, rfl⟩, rfl, rfl⟩
      exact ⟨_, c₁, body, .fixed hlt, hadv, hbody, nofun, rfl⟩
    · rintro ⟨_, c₁, body, ⟨hlt⟩, hadv, hbody, _, rfl⟩
      exact ⟨_, c₁, ⟨hlt, hadv⟩, _, c', ⟨body, hbody, rfl, rfl⟩, rfl, rfl⟩
  | varint =>
    simp only [Decoder.bind_ok, Decoder.pure_ok, Decoder.read_ok, Varint.decode_ok,
      Cursor.split_ok]
    constructor
    · rintro ⟨_, c₁, ⟨h, hform, hadv⟩, _, _, ⟨body, hbody, rfl, rfl⟩, rfl, rfl⟩
      exact ⟨h, c₁, body, .varint hform, hadv, hbody, nofun, rfl⟩
    · rintro ⟨h, c₁, body, hform, hadv, hbody, _, rfl⟩
      cases hform with
      | varint hform =>
        exact ⟨_, c₁, ⟨h, hform, hadv⟩, _, c', ⟨body, hbody, rfl, rfl⟩, rfl, rfl⟩
  | unbounded =>
    simp only [Decoder.bind_ok, Decoder.pure_ok, Decoder.read_ok, Decoder.cursor_ok,
      Cursor.split_ok]
    constructor
    · rintro ⟨_, _, ⟨rfl, rfl⟩, _, after, ⟨body, hbody, hlen, rfl⟩, rfl, rfl⟩
      -- The content is as long as all that was left, so nothing is left after it.
      have hrest : after.rest = [] := by
        have hremaining := hbody.remaining
        rw [hlen, after.remaining_eq] at hremaining
        exact List.eq_nil_of_length_eq_zero (by omega)
      exact ⟨[], c, body, .unbounded, c.advances_refl, hbody, fun _ => hrest, rfl⟩
    · rintro ⟨_, c₁, body, ⟨⟩, hadv, hbody, hrest, rfl⟩
      obtain rfl := hadv.eq_of_nil
      have hlen : body.length = c₁.remaining := by
        rw [hbody.remaining, c'.remaining_eq, hrest trivial]
        rfl
      exact ⟨c₁, c₁, ⟨rfl, rfl⟩, _, c', ⟨body, hbody, hlen, rfl⟩, rfl, rfl⟩

/-- A head and as much content as it states open a sequence over this content. -/
theorem exists_ofHead (ctx : Context) {head : Head} {c c' : Cursor} {front body : Bytes}
    (hfront : head.Form body.length front) (hadv : c.Advances (front ++ body) c')
    (hend : head = .unbounded → c'.rest = []) :
    ∃ seq, ofHead ctx head c = .ok seq c' ∧ seq.count = 0 ∧ seq.scope.rest = body := by
  obtain ⟨c₁, hadv₁, hadv₂⟩ := hadv.split
  exact ⟨_, ofHead_ok.mpr ⟨front, c₁, body, hfront, hadv₁, hadv₂, hend, rfl⟩, rfl, rfl⟩

/-! ## One element -/

/-- There is no next element exactly at the end of the content. -/
theorem next_none {ctx : Context} {elem : Context → Decoder α} {seq seq' : Sequence} :
    next ctx elem seq = .ok none seq' ↔ seq.scope.rest = [] ∧ seq' = seq := by
  unfold next
  rw [← Cursor.isEmpty_iff]
  split
  case isTrue h => simp [h, eq_comm]
  case isFalse h =>
    simp only [h, Bool.false_eq_true, false_and]
    split
    · simp
    · split
      · simp
      · split <;> simp

/-- There is a next element exactly if content is left, the limit is not reached, the element is
decoded, and it takes up space. Then the count goes up by one. -/
theorem next_some {ctx : Context} {elem : Context → Decoder α} {seq seq' : Sequence} {a : α} :
    next ctx elem seq = .ok (some a) seq' ↔
      seq.scope.rest ≠ [] ∧ seq.count < ctx.maxCollect ∧
        ∃ scope, elem (ctx.push Step.elementName seq.scope.pos) seq.scope = .ok a scope ∧
          scope.remaining < seq.scope.remaining ∧
          seq' = { seq with scope, count := seq.count + 1 } := by
  unfold next
  rw [ne_eq, ← Cursor.isEmpty_iff]
  split
  case isTrue h => simp [h]
  case isFalse h =>
    simp only [h, Bool.false_eq_true, not_false_eq_true, true_and]
    -- The limit is checked before the element is looked at.
    have hcheck : (ctx.push Step.elementName seq.scope.pos).checkCollect seq.count = .ok () ↔
        seq.count < ctx.maxCollect := Context.checkCollect_eq_ok
    split
    case h_1 e he =>
      rw [he] at hcheck
      have hlimit : ¬ seq.count < ctx.maxCollect := fun hlt => by cases hcheck.mpr hlt
      simp [hlimit]
    case h_2 u hu =>
      have hlimit : seq.count < ctx.maxCollect := hcheck.mp hu
      simp only [hlimit, true_and]
      cases elem (ctx.push Step.elementName seq.scope.pos) seq.scope with
      | error e scope => simp
      | ok a' scope =>
        simp only [EStateM.Result.ok.injEq]
        split
        case isTrue hsolid =>
          simp only [EStateM.Result.ok.injEq, Option.some.injEq]
          constructor
          · rintro ⟨rfl, rfl⟩
            exact ⟨scope, ⟨rfl, rfl⟩, hsolid, rfl⟩
          · rintro ⟨_, ⟨rfl, rfl⟩, _, rfl⟩
            exact ⟨rfl, rfl⟩
        case isFalse hsolid =>
          -- An element that takes up no space is an error.
          simp only [reduceCtorEq, false_iff]
          rintro ⟨_, ⟨_, rfl⟩, hlt, _⟩
          exact hsolid hlt

/-- Why there is no next element: the limit is reached, it does not decode, or it takes up no
space. -/
theorem next_error {ctx : Context} {elem : Context → Decoder α} {seq seq' : Sequence}
    {e : DecodeError} (h : next ctx elem seq = .error e seq') :
    e = .collectionTooLarge (ctx.push Step.elementName seq.scope.pos).location ∨
      (∃ e' scope, elem (ctx.push Step.elementName seq.scope.pos) seq.scope = .error e' scope ∧
        e = blame seq.bounded (ctx.push Step.elementName seq.scope.pos) e') ∨
      e = .malformed (ctx.push Step.elementName seq.scope.pos).location .emptyElement := by
  unfold next at h
  split at h
  case isTrue => cases h
  case isFalse =>
    simp only at h
    split at h
    case h_1 e' hcheck =>
      cases h
      -- The limit is told at the place of the element that would be too many.
      unfold Context.checkCollect at hcheck
      split at hcheck
      case isTrue =>
        cases hcheck
        exact .inl rfl
      case isFalse => cases hcheck
    case h_2 =>
      split at h
      case h_1 e' scope hrun =>
        cases h
        exact .inr (.inl ⟨e', scope, hrun, rfl⟩)
      case h_2 =>
        split at h
        case isTrue => cases h
        case isFalse =>
          cases h
          exact .inr (.inr rfl)

/-! ## A run of elements -/

/-- A run that decodes some elements one after another. -/
inductive Yields (ctx : Context) (elem : Context → Decoder α) :
    Sequence → List α → Sequence → Prop where
  | nil {seq : Sequence} : Yields ctx elem seq [] seq
  | cons {seq seq' seq'' : Sequence} {a : α} {as : List α}
      (hnext : next ctx elem seq = .ok (some a) seq') (tail : Yields ctx elem seq' as seq'') :
      Yields ctx elem seq (a :: as) seq''

/-- However the elements are decoded, every one of them uses up content. -/
theorem Yields.length_le {ctx : Context} {elem : Context → Decoder α} {seq seq' : Sequence}
    {as : List α} (h : Yields ctx elem seq as seq') :
    as.length + seq'.scope.remaining ≤ seq.scope.remaining := by
  induction h with
  | nil => exact Nat.le_of_eq (Nat.zero_add _)
  | cons hnext _ ih =>
    have hsolid := remaining_lt_of_next hnext
    rw [List.length_cons]
    omega

/-- Every run comes to a point where no other element is found. -/
theorem exists_yields (ctx : Context) (elem : Context → Decoder α) (seq : Sequence) :
    ∃ as seq', Yields ctx elem seq as seq' ∧
      ∀ a seq'', next ctx elem seq' ≠ .ok (some a) seq'' := by
  -- If another element is found, then it has used up content, so that the recursion comes to an
  -- end.
  by_cases hstop : ∀ a seq'', next ctx elem seq ≠ .ok (some a) seq''
  · exact ⟨[], seq, .nil, hstop⟩
  · have hnext : ∃ a seq', next ctx elem seq = .ok (some a) seq' := by simpa using hstop
    obtain ⟨a, seq', hnext⟩ := hnext
    obtain ⟨as, seq'', hrun, hlast⟩ := exists_yields ctx elem seq'
    exact ⟨a :: as, seq'', .cons hnext hrun, hlast⟩
  termination_by seq.scope.remaining
  decreasing_by exact remaining_lt_of_next hnext

/-- A fold fails where no next element is decoded, or where one cannot be added. -/
theorem fold_error {ctx : Context} {elem : Context → Decoder α}
    {add : σ → α → Except DecodeError σ} {acc : σ} {seq : Sequence} {e : DecodeError}
    (h : fold ctx elem add acc seq = .error e) :
    ∃ as seq', Yields ctx elem seq as seq' ∧
      ((∃ seq'', next ctx elem seq' = .error e seq'') ∨ ∃ acc a, add acc a = .error e) := by
  rw [fold_eq] at h
  -- The fold fails at once, or after one element more.
  cases hnext : next ctx elem seq with
  | error e' seq' =>
    rw [hnext] at h
    cases h
    exact ⟨[], seq, .nil, .inl ⟨seq', hnext⟩⟩
  | ok found seq' =>
    rw [hnext] at h
    cases found with
    | none => cases h
    | some a =>
      simp only at h
      cases hadd : add acc a with
      | error e' =>
        rw [hadd] at h
        cases h
        exact ⟨[a], seq', .cons hnext .nil, .inr ⟨acc, a, hadd⟩⟩
      | ok acc' =>
        rw [hadd] at h
        obtain ⟨as, seq'', hrun, hwhy⟩ := fold_error h
        exact ⟨a :: as, seq'', .cons hnext hrun, hwhy⟩
  termination_by seq.scope.remaining
  decreasing_by exact remaining_lt_of_next hnext

end Sequence

/-- A run over all elements of a scope, of which `count` come before it. -/
inductive Elements (ctx : Context) (elem : Context → Decoder α) : Nat → Cursor → List α → Prop where
  | nil {count : Nat} {c : Cursor} (h : c.rest = []) : Elements ctx elem count c []
  | cons {count : Nat} {c c' : Cursor} {a : α} {as : List α} (hrest : c.rest ≠ [])
      (hlimit : count < ctx.maxCollect)
      (hrun : elem (ctx.push Step.elementName c.pos) c = .ok a c')
      (hsolid : c'.remaining < c.remaining) (tail : Elements ctx elem (count + 1) c' as) :
      Elements ctx elem count c (a :: as)

namespace Sequence

/-- A fold that succeeds has gone over all elements and has added them up in order. -/
theorem elements_of_fold {ctx : Context} {elem : Context → Decoder α}
    {add : σ → α → Except DecodeError σ} {acc r : σ} {seq : Sequence}
    (h : fold ctx elem add acc seq = .ok r) :
    ∃ as, Elements ctx elem seq.count seq.scope as ∧ as.foldlM add acc = .ok r := by
  rw [fold_eq] at h
  cases hnext : next ctx elem seq with
  | error e seq' =>
    rw [hnext] at h
    cases h
  | ok found seq' =>
    rw [hnext] at h
    cases found with
    | none =>
      cases h
      exact ⟨[], .nil (next_none.mp hnext).1, rfl⟩
    | some a =>
      -- Everything that a run asks of the element has been checked.
      obtain ⟨hrest, hlimit, scope, hrun, hsolid, rfl⟩ := next_some.mp hnext
      simp only at h
      cases hadd : add acc a with
      | error e =>
        rw [hadd] at h
        cases h
      | ok acc' =>
        rw [hadd] at h
        obtain ⟨as, hrun', hsum⟩ := elements_of_fold h
        refine ⟨a :: as, .cons hrest hlimit hrun hsolid hrun', ?_⟩
        rw [List.foldlM_cons, hadd]
        exact hsum
  termination_by seq.scope.remaining
  decreasing_by exact hsolid

/-- Where all elements are decoded, folding over the sequence is folding over them. -/
theorem fold_eq_foldlM {ctx : Context} {elem : Context → Decoder α}
    {add : σ → α → Except DecodeError σ} {acc : σ} {seq : Sequence} {as : List α}
    (h : Elements ctx elem seq.count seq.scope as) :
    fold ctx elem add acc seq = as.foldlM add acc := by
  -- The induction is on the run, which is indexed by these two.
  generalize hcount : seq.count = count at h
  generalize hscope : seq.scope = scope at h
  induction h generalizing seq acc with
  | nil hrest =>
    subst hscope
    rw [fold_eq, next_none.mpr ⟨hrest, rfl⟩]
    rfl
  | @cons count c c' a as hrest hlimit hrun hsolid tail ih =>
    subst hscope hcount
    rw [fold_eq, next_some.mpr ⟨hrest, hlimit, c', hrun, hsolid, rfl⟩, List.foldlM_cons]
    simp only
    cases add acc a with
    | error e => rfl
    | ok acc' => exact ih rfl rfl

/-- Folding succeeds exactly if there is a run and its elements can be added up. -/
theorem fold_ok {ctx : Context} {elem : Context → Decoder α}
    {add : σ → α → Except DecodeError σ} {acc r : σ} {seq : Sequence} :
    fold ctx elem add acc seq = .ok r ↔
      ∃ as, Elements ctx elem seq.count seq.scope as ∧ as.foldlM add acc = .ok r :=
  ⟨elements_of_fold, fun ⟨_, h, hsum⟩ => (fold_eq_foldlM h).trans hsum⟩

end Sequence

/-- A run over a given number of elements, from one cursor to another. -/
inductive Items (ctx : Context) (elem : Context → Decoder α) : Cursor → List α → Cursor → Prop where
  | nil {c : Cursor} : Items ctx elem c [] c
  | cons {c c' c'' : Cursor} {a : α} {as : List α}
      (hrun : elem (ctx.push Step.elementName c.pos) c = .ok a c')
      (tail : Items ctx elem c' as c'') : Items ctx elem c (a :: as) c''

/-- Decoding a given number of items is a run over as many. -/
theorem Decoder.items_ok {ctx : Context} {elem : Context → Decoder α} {length : Nat}
    {c c' : Cursor} {xs : Tuple α length} :
    items elem ctx length c = .ok xs c' ↔ Items ctx elem c xs.val c' := by
  induction length generalizing c with
  | zero =>
    obtain ⟨as, has⟩ := xs
    obtain rfl := List.eq_nil_of_length_eq_zero has
    rw [items, pure_ok]
    constructor
    · rintro ⟨_, rfl⟩
      exact .nil
    · intro h
      cases h
      exact ⟨rfl, rfl⟩
  | succ length ih =>
    obtain ⟨as, has⟩ := xs
    obtain ⟨a, as, rfl⟩ := List.exists_cons_of_length_eq_add_one has
    simp only [items, bind_ok, pure_ok, pos_ok]
    constructor
    · rintro ⟨_, _, ⟨rfl, rfl⟩, b, c₁, hrun, ys, _, htail, heq, rfl⟩
      obtain ⟨rfl, hys⟩ := List.cons.inj (congrArg Subtype.val heq)
      exact .cons hrun (hys ▸ ih.mp htail)
    · intro h
      cases h with
      | @cons _ c₁ _ _ _ hrun tail =>
        have hlen : as.length = length := Nat.succ.inj has
        exact ⟨_, c, ⟨rfl, rfl⟩, a, c₁, hrun, ⟨as, hlen⟩, c', ih.mpr tail, rfl, rfl⟩

end TlsWire

import TlsWire.Cursor.Session
import TlsWire.Proofs.Varint

/-!
# Scopes stay exact

However the cursors of a session are used, each of them goes on showing exactly its part of the
input (`Cursor.Exact`): what is unread is the input from the cursor's position up to the end of its
scope, and that end never moves. A step succeeds exactly if its scope holds the bytes that it needs
(`CursorOp.need`), and then it returns these and moves its own cursor behind them
(`CursorOp.Returns`); otherwise it moves none (`CursorOp.apply_ok`, `CursorOp.apply_error`).

One step keeps all cursors exact (`Session.exact_of_step`) and moves none of them back
(`Session.onward_of_step`), and so does a whole run (`Session.exact_and_onward_of_run`).

That a failed step moves no cursor holds here because a read that fails returns none. A window could
be moved before the read fails. The same steps on windows end alike, so none is
(`Checked.Session.step_follows`).
-/

namespace TlsWire

/-- The `n` bytes of the input from an offset on. -/
def bytesAt (data : Bytes) (pos n : Nat) : Bytes := (data.drop pos).take n

/-- The first few of some bytes are those few. -/
theorem take_bytesAt {data : Bytes} {pos m n : Nat} (h : n ≤ m) :
    (bytesAt data pos m).take n = bytesAt data pos n := by
  rw [bytesAt, List.take_take, Nat.min_eq_left h, bytesAt]

/-- Leaving out the first few starts as much later. -/
theorem drop_bytesAt (data : Bytes) (pos m n : Nat) :
    (bytesAt data pos m).drop n = bytesAt data (pos + n) (m - n) := by
  rw [bytesAt, List.drop_take, List.drop_drop, bytesAt]

namespace Cursor

variable {data b : Bytes} {c c' : Cursor}

/-- The cursor shows the input from its position up to the end of its scope. -/
structure Exact (data : Bytes) (c : Cursor) : Prop where
  rest : c.rest = bytesAt data c.pos c.remaining
  within : c.pos + c.remaining ≤ data.length

/-- The whole input is exact. -/
theorem exact_ofBytes (data : Bytes) : (ofBytes data).Exact data where
  rest := by
    show data = (data.drop 0).take data.length
    rw [List.drop_zero, List.take_length]
  within := Nat.le_of_eq (Nat.zero_add _)

/-- Moving on keeps a cursor exact: it starts later in the same scope. -/
theorem Exact.advances (h : c.Exact data) (hadv : c.Advances b c') : c'.Exact data where
  rest := by
    have hrest : c'.rest = c.rest.drop b.length := by rw [hadv.rest, List.drop_left]
    have hleft : c.remaining - b.length = c'.remaining := by
      rw [hadv.remaining, Nat.add_sub_cancel_left]
    rw [hrest, h.rest, drop_bytesAt, hleft, hadv.pos]
  within := by
    have hstop : c'.pos + c'.remaining = c.pos + c.remaining := hadv.stop
    rw [hstop]
    exact h.within

/-- What the cursor moves over is the input at its position. -/
theorem Exact.eq_bytesAt (h : c.Exact data) (hadv : c.Advances b c') :
    b = bytesAt data c.pos b.length := by
  have hle : b.length ≤ c.remaining := by
    rw [hadv.remaining]
    exact Nat.le_add_right _ _
  rw [← take_bytesAt hle, ← h.rest, hadv.rest, List.take_left]

/-- A scope that is split off shows what its parent leaves behind. -/
theorem Exact.scope (h : c.Exact data) (hadv : c.Advances b c') : (c.scope b).Exact data where
  rest := h.eq_bytesAt hadv
  within := by
    show c.pos + b.length ≤ data.length
    have hwithin := h.within
    have hremaining := hadv.remaining
    omega

/-- As long as the scope holds the bytes, there are as many as were asked for. -/
theorem Exact.length_bytesAt (h : c.Exact data) {n : Nat} (hn : n ≤ c.remaining) :
    (bytesAt data c.pos n).length = n := by
  rw [← take_bytesAt hn, ← h.rest]
  exact List.length_take_of_le (c.remaining_eq ▸ hn)

/-- There are as many bytes to move over as the scope holds. -/
theorem Exact.exists_advances (h : c.Exact data) {n : Nat} (hn : n ≤ c.remaining) :
    ∃ c', c.Advances (bytesAt data c.pos n) c' := by
  obtain ⟨c', hadv, _⟩ := Cursor.exists_advances (List.take_append_drop n c.rest).symm
  rw [h.rest, take_bytesAt hn] at hadv
  exact ⟨c', hadv⟩

end Cursor

/-! ## Operations -/

namespace CursorOp

/-- How many bytes the operation needs in front of the cursor. The length of a varint is told by its
first byte, so that one is needed to tell it. -/
def need (c : Cursor) : CursorOp → Nat
  | .take n => n
  | .readByte => 1
  | .advance n => n
  | .split n => n
  | .copy => 0
  | .rest => 0
  | .uint width => width
  | .varint =>
    match c.rest with
    | [] => 1
    | first :: _ => Varint.formLength (first.toNat / 64)

/-- What the operation returns at the cursor, all of it from the input at the cursor's position, and
which cursors it adds. -/
inductive Returns (data : Bytes) (c : Cursor) : CursorOp → Yield → List Cursor → Prop where
  | take {n : Nat} : Returns data c (.take n) (.bytes (bytesAt data c.pos n)) []
  | readByte {b : UInt8} (h : bytesAt data c.pos 1 = [b]) : Returns data c .readByte (.byte b) []
  | advance {n : Nat} : Returns data c (.advance n) .nothing []
  | split {n : Nat} {child : Cursor} (hexact : child.Exact data) (hpos : child.pos = c.pos)
      (hremaining : child.remaining = n) : Returns data c (.split n) (.child child) [child]
  | copy : Returns data c .copy .nothing [c]
  | rest : Returns data c .rest (.bytes (bytesAt data c.pos c.remaining)) []
  | uint {width : Nat} :
      Returns data c (.uint width) (.number (ofBigEndian (bytesAt data c.pos width))) []
  | varint {n : Nat} (h : Varint.Form n (bytesAt data c.pos (need c .varint))) :
      Returns data c .varint (.number n) []

variable {data : Bytes} {c : Cursor} {op : CursorOp}

/-- The class in the first byte is looked at before the form is taken. -/
theorem need_varint_cons {first : UInt8} {tail : Bytes} (h : c.rest = first :: tail) :
    need c .varint = Varint.formLength (first.toNat / 64) := by
  rw [need, h]

/-- Without a first byte it is this one that is lacking. -/
theorem need_varint_nil (h : c.rest = []) : need c .varint = 1 := by
  rw [need, h]

/-- A scope with as many bytes as the first one tells shows the form of a number. -/
theorem varint_ok (hc : c.Exact data) (h : need c .varint ≤ c.remaining) :
    ∃ n c', Varint.decode c = .ok (n, c') ∧ c.Advances (bytesAt data c.pos (need c .varint)) c' ∧
      Varint.Form n (bytesAt data c.pos (need c .varint)) := by
  have hlength := hc.length_bytesAt h
  obtain ⟨c', hadv⟩ := hc.exists_advances h
  cases hrest : c.rest with
  | nil =>
    -- An empty scope does not hold the one byte that tells how many there are.
    rw [need_varint_nil hrest, c.remaining_eq, hrest] at h
    cases h
  | cons first tail =>
    have hneed := need_varint_cons hrest
    have htake : c.take (Varint.formLength (first.toNat / 64)) =
        .ok (bytesAt data c.pos (need c .varint), c') :=
      Cursor.take_ok.mpr ⟨hadv, hlength.trans hneed⟩
    obtain ⟨n, hn⟩ : ∃ n, Varint.decode c = .ok (n, c') := by
      rw [Varint.decode_cons hrest, Uint.decode, htake]
      exact ⟨_, rfl⟩
    obtain ⟨b, hform, hb⟩ := Varint.decode_ok.mp hn
    -- Both moves end at `c'`, so they are over the same bytes.
    have hsame : b = bytesAt data c.pos (need c .varint) :=
      List.append_cancel_right (hb.rest.symm.trans hadv.rest)
    exact ⟨n, c', hn, hadv, hsame ▸ hform⟩

/-- Where there is a first byte but not enough behind it, the number of bytes that it tells is
reported. -/
theorem varint_error (h : c.remaining < need c .varint) :
    Varint.decode c = .error ⟨need c .varint, c.remaining⟩ := by
  cases hrest : c.rest with
  | nil =>
    -- Nothing is left, so one byte is lacking and none is there.
    have hremaining : c.remaining = 0 := by rw [c.remaining_eq, hrest, List.length_nil]
    rw [Varint.decode_nil hrest, need_varint_nil hrest, hremaining]
  | cons first tail =>
    rw [need_varint_cons hrest] at h ⊢
    have htake := Cursor.take_eq_error.mpr ⟨h, rfl⟩
    rw [Varint.decode_cons hrest, Uint.decode, htake]
    rfl

/-- A scope that holds the bytes that are needed gives what stands there, and the cursor moves
behind it. -/
theorem apply_ok (hc : c.Exact data) (h : op.need c ≤ c.remaining) :
    ∃ yield c' added, op.apply c = .ok (yield, c', added) ∧
      c.Advances (bytesAt data c.pos (op.need c)) c' ∧ op.Returns data c yield added := by
  -- One move covers all operations: over the bytes that are needed, which stand in front of the
  -- cursor.
  have hlength := hc.length_bytesAt h
  obtain ⟨c', hadv⟩ := hc.exists_advances h
  have htake : c.take (op.need c) = .ok (bytesAt data c.pos (op.need c), c') :=
    Cursor.take_ok.mpr ⟨hadv, hlength⟩
  cases op with
  | take n =>
    have hrun : c.take n = .ok (bytesAt data c.pos n, c') := htake
    exact ⟨_, c', _, by rw [apply, hrun]; rfl, hadv, .take⟩
  | readByte =>
    obtain ⟨b, hb⟩ := List.length_eq_one_iff.mp hlength
    have hrun : c.readByte = .ok (b, c') := Cursor.readByte_ok.mpr (hb ▸ hadv)
    exact ⟨_, c', _, by rw [apply, hrun]; rfl, hadv, .readByte hb⟩
  | advance n =>
    have hrun : c.take n = .ok (bytesAt data c.pos n, c') := htake
    exact ⟨_, c', _, by rw [apply, Cursor.advance, hrun]; rfl, hadv, .advance⟩
  | split n =>
    have hrun : c.split n = .ok (c.scope (bytesAt data c.pos n), c') :=
      Cursor.split_ok.mpr ⟨_, hadv, hlength, rfl⟩
    exact ⟨_, c', _, by rw [apply, hrun]; rfl, hadv, .split (hc.scope hadv) rfl hlength⟩
  | copy => exact ⟨_, c, _, rfl, c.advances_refl, .copy⟩
  | rest => exact ⟨_, c, _, by rw [apply, hc.rest], c.advances_refl, .rest⟩
  | uint width =>
    have hrun : c.take width = .ok (bytesAt data c.pos width, c') := htake
    exact ⟨_, c', _, by rw [apply, Uint.decode, hrun]; rfl, hadv, .uint⟩
  | varint =>
    obtain ⟨n, c'', hrun, hadv', hform⟩ := varint_ok hc h
    exact ⟨_, c'', _, by rw [apply, hrun]; rfl, hadv', .varint hform⟩

/-- A scope with too few bytes fails with what was needed and what it holds. -/
theorem apply_error (h : c.remaining < op.need c) :
    op.apply c = .error ⟨op.need c, c.remaining⟩ := by
  have htake : ∀ n, c.remaining < n → c.take n = .error ⟨n, c.remaining⟩ :=
    fun n hn => Cursor.take_eq_error.mpr ⟨hn, rfl⟩
  cases op with
  | take n =>
    rw [apply, htake n h]
    rfl
  | readByte =>
    rw [apply, Cursor.readByte, htake 1 h]
    rfl
  | advance n =>
    rw [apply, Cursor.advance, htake n h]
    rfl
  | split n =>
    rw [apply, Cursor.split, htake n h]
    rfl
  -- These two need nothing, so they cannot lack anything.
  | copy => exact absurd h (Nat.not_lt_zero _)
  | rest => exact absurd h (Nat.not_lt_zero _)
  | uint width =>
    rw [apply, Uint.decode, htake width h]
    rfl
  | varint =>
    rw [apply, varint_error h]
    rfl

/-- The cursors that an operation adds are exact as well. -/
theorem Returns.exact_added {yield : Yield} {added : List Cursor}
    (h : op.Returns data c yield added) (hc : c.Exact data) : ∀ a ∈ added, a.Exact data := by
  cases h with
  | split hexact _ _ => exact List.forall_mem_singleton.mpr hexact
  | copy => exact List.forall_mem_singleton.mpr hc
  | take | readByte | advance | rest | uint | varint => exact List.forall_mem_nil _

end CursorOp

/-! ## Sessions -/

namespace Session

/-- Takes the steps one after another, as far as the cursors that they work on exist. -/
def run (session : Session) : (steps : List (Nat × CursorOp)) → Option Session
  | [] => some session
  | (index, op) :: steps =>
    match session.step index op with
    | none => none
    | some (_, session) => session.run steps

/-- All cursors of the session show their part of the input. -/
def Exact (data : Bytes) (session : Session) : Prop := ∀ c ∈ session, c.Exact data

/-- The cursors of the session are still there later. Their scopes end where they did, and none of
them has moved back. -/
def Onward (session later : Session) : Prop :=
  ∀ (i : Nat) (c : Cursor), session[i]? = some c →
    ∃ c' : Cursor, later[i]? = some c' ∧ c'.stop = c.stop ∧ c.pos ≤ c'.pos

variable {data : Bytes} {s s' s'' : Session} {i : Nat} {c : Cursor} {op : CursorOp}

/-- Nothing has happened to any cursor. -/
theorem onward_refl (s : Session) : s.Onward s :=
  fun _ c hc => ⟨c, hc, rfl, Nat.le_refl _⟩

/-- Cursors that stay at hand twice stay at hand, and do not move back on the way. -/
theorem Onward.trans (h : s.Onward s') (h' : s'.Onward s'') : s.Onward s'' := by
  intro i c hc
  obtain ⟨c', hc', hstop, hpos⟩ := h i c hc
  obtain ⟨c'', hc'', hstop', hpos'⟩ := h' i c' hc'
  exact ⟨c'', hc'', hstop'.trans hstop, Nat.le_trans hpos hpos'⟩

/-- At first there is one cursor, over the whole input. -/
theorem exact_ofBytes (data : Bytes) : (ofBytes data).Exact data :=
  List.forall_mem_singleton.mpr (Cursor.exact_ofBytes data)

/-- The cursor that the step works on is replaced where it stands. -/
theorem getElem?_moved {c' : Cursor} (hc : s[i]? = some c) (added : List Cursor) :
    (s.set i c' ++ added)[i]? = some c' := by
  have hi : i < s.length := (List.getElem?_eq_some_iff.mp hc).1
  rw [List.getElem?_append_left (by rwa [List.length_set]), List.getElem?_set_self hi]

/-- Every other cursor stands where it was, since new ones are put behind all of them. -/
theorem getElem?_unmoved {j : Nat} {c' : Cursor} (hc : s[j]? = some c) (hij : i ≠ j)
    (added : List Cursor) : (s.set i c' ++ added)[j]? = some c := by
  have hj : j < s.length := (List.getElem?_eq_some_iff.mp hc).1
  rw [List.getElem?_append_left (by rwa [List.length_set]), List.getElem?_set_ne hij, hc]

/-- A step moves the cursor that it works on over what it needs and adds exact cursors. -/
theorem step_ok (hs : s.Exact data) (hc : s[i]? = some c) (h : op.need c ≤ c.remaining) :
    ∃ yield c' added, s.step i op = some (.ok yield, s.set i c' ++ added) ∧
      c.Advances (bytesAt data c.pos (op.need c)) c' ∧ op.Returns data c yield added := by
  obtain ⟨yield, c', added, happly, hadv, hreturns⟩ :=
    CursorOp.apply_ok (hs c (List.mem_of_getElem? hc)) h
  exact ⟨yield, c', added, by rw [step, hc]; simp only [happly], hadv, hreturns⟩

/-- A step fails with what it needs and what there is, and leaves the session as it was. -/
theorem step_error (hc : s[i]? = some c) (h : c.remaining < op.need c) :
    s.step i op = some (.error ⟨op.need c, c.remaining⟩, s) := by
  rw [step, hc]
  simp only [CursorOp.apply_error h]

/-- What a step can do: nothing, or what `step_ok` says. -/
theorem step_cases {r : Except Truncated CursorOp.Yield} (hs : s.Exact data)
    (h : s.step i op = some (r, s')) :
    s' = s ∨ ∃ c c' added yield, s[i]? = some c ∧ s' = s.set i c' ++ added ∧
      c.Advances (bytesAt data c.pos (op.need c)) c' ∧ op.Returns data c yield added := by
  cases hc : s[i]? with
  | none =>
    rw [step, hc] at h
    cases h
  | some c =>
    -- Whether the scope holds the bytes decides which of the two it is.
    rcases Nat.lt_or_ge c.remaining (op.need c) with hlt | hge
    · rw [step_error hc hlt] at h
      cases h
      exact .inl rfl
    · obtain ⟨yield, c', added, hstep, hadv, hreturns⟩ := step_ok hs hc hge
      rw [hstep] at h
      cases h
      exact .inr ⟨c, c', added, yield, rfl, rfl, hadv, hreturns⟩

/-- One step keeps all cursors exact. -/
theorem exact_of_step {r : Except Truncated CursorOp.Yield} (hs : s.Exact data)
    (h : s.step i op = some (r, s')) : s'.Exact data := by
  rcases step_cases hs h with rfl | ⟨c, c', added, yield, hc, rfl, hadv, hreturns⟩
  · exact hs
  · have hexact : c.Exact data := hs c (List.mem_of_getElem? hc)
    -- A cursor after the step was there before, or is the one that has moved, or has been added.
    intro a ha
    rcases List.mem_append.mp ha with hset | hadded
    · rcases List.mem_or_eq_of_mem_set hset with hold | rfl
      · exact hs a hold
      · exact hexact.advances hadv
    · exact hreturns.exact_added hexact a hadded

/-- One step moves no cursor back. -/
theorem onward_of_step {r : Except Truncated CursorOp.Yield} (hs : s.Exact data)
    (h : s.step i op = some (r, s')) : s.Onward s' := by
  rcases step_cases hs h with rfl | ⟨c, c', added, yield, hc, rfl, hadv, _⟩
  · exact onward_refl s'
  · intro j d hd
    -- The cursor in question is the one that the step works on, or it is left alone.
    by_cases hij : i = j
    · subst hij
      obtain rfl : c = d := Option.some.inj (hc.symm.trans hd)
      exact ⟨c', getElem?_moved hc added, hadv.stop, hadv.pos_le⟩
    · exact ⟨d, getElem?_unmoved hd hij added, rfl, Nat.le_refl _⟩

/-- Any number of steps keeps all cursors exact and moves none of them back. -/
theorem exact_and_onward_of_run {steps : List (Nat × CursorOp)} (hs : s.Exact data)
    (h : s.run steps = some s') : s'.Exact data ∧ s.Onward s' := by
  -- By induction on the steps. Exactness is what the next step needs to be judged.
  induction steps generalizing s with
  | nil =>
    obtain rfl : s = s' := Option.some.inj h
    exact ⟨hs, onward_refl s⟩
  | cons first steps ih =>
    obtain ⟨i, op⟩ := first
    rw [run] at h
    cases hstep : s.step i op with
    | none =>
      rw [hstep] at h
      cases h
    | some r =>
      rw [hstep] at h
      obtain ⟨hexact, honward⟩ := ih (exact_of_step hs hstep) h
      exact ⟨hexact, (onward_of_step hs hstep).trans honward⟩

/-- The child of a split stands at the end of the session, and its parent has moved behind it. -/
theorem step_split {n : Nat} {child : Cursor} (hs : s.Exact data) (hc : s[i]? = some c)
    (h : s.step i (.split n) = some (.ok (.child child), s')) :
    child.rest = bytesAt data c.pos n ∧ child.pos = c.pos ∧ s'[s.length]? = some child ∧
      ∃ c' : Cursor, s'[i]? = some c' ∧ c'.pos = c.pos + n := by
  rcases Nat.lt_or_ge c.remaining (CursorOp.need c (.split n)) with hlt | hge
  · rw [step_error hc hlt] at h
    cases h
  · obtain ⟨yield, c', added, hstep, hadv, hreturns⟩ := step_ok hs hc hge
    rw [hstep] at h
    cases h
    cases hreturns with
    | split hexact hpos hremaining =>
      -- The child is the only cursor that is added, and so the last one.
      have hend : s.length = (s.set i c').length := List.length_set.symm
      refine ⟨?_, hpos, ?_, c', getElem?_moved hc _, ?_⟩
      · rw [hexact.rest, hpos, hremaining]
      · rw [hend, List.getElem?_concat_length]
      · have hlength := (hs c (List.mem_of_getElem? hc)).length_bytesAt hge
        rw [hadv.pos, hlength]
        rfl

/-- **Scopes stay exact.** Whatever steps have been taken on the cursors over an input,

* every cursor shows the input from its position up to the end of its scope;
* a step on one of them succeeds if the scope holds the bytes that it needs: it returns these,
  moves its own cursor behind them and leaves the others where they are; otherwise it fails, tells
  what was needed and what there was, and changes no cursor;
* no further steps move the end of a scope, or a cursor back;
* a child that is split off covers exactly the bytes in front of its parent, and from then on the
  parent stands behind them, so that it never returns them again. -/
theorem scopes_exact {steps : List (Nat × CursorOp)} (hrun : (ofBytes data).run steps = some s) :
    (∀ c ∈ s, c.rest = bytesAt data c.pos c.remaining ∧ c.stop ≤ data.length) ∧
    (∀ i c, s[i]? = some c → ∀ op : CursorOp,
      (op.need c ≤ c.remaining → ∃ yield c' added,
        s.step i op = some (.ok yield, s.set i c' ++ added) ∧ c'.pos = c.pos + op.need c ∧
          c'.stop = c.stop ∧ op.Returns data c yield added) ∧
      (c.remaining < op.need c →
        s.step i op = some (.error ⟨op.need c, c.remaining⟩, s))) ∧
    (∀ later s', s.run later = some s' → s.Onward s') ∧
    (∀ i c n child s', s[i]? = some c → s.step i (.split n) = some (.ok (.child child), s') →
      child.rest = bytesAt data c.pos n ∧ child.pos = c.pos ∧ s'[s.length]? = some child ∧
        ∀ later s'', s'.run later = some s'' → ∃ c', s''[i]? = some c' ∧ c.pos + n ≤ c'.pos) := by
  -- Everything follows from the cursors being exact after the steps so far.
  obtain ⟨hs, _⟩ := exact_and_onward_of_run (exact_ofBytes data) hrun
  refine ⟨fun c hc => ⟨(hs c hc).rest, (hs c hc).within⟩, fun i c hc op => ⟨fun hle => ?_, ?_⟩,
    fun later s' hlater => (exact_and_onward_of_run hs hlater).2, ?_⟩
  · obtain ⟨yield, c', added, hstep, hadv, hreturns⟩ := step_ok hs hc hle
    have hlength := (hs c (List.mem_of_getElem? hc)).length_bytesAt hle
    exact ⟨yield, c', added, hstep, by rw [hadv.pos, hlength], hadv.stop, hreturns⟩
  · exact step_error hc
  · intro i c n child s' hc hsplit
    obtain ⟨hrest, hpos, hchild, c', hc', hbehind⟩ := step_split hs hc hsplit
    refine ⟨hrest, hpos, hchild, fun later s'' hlater => ?_⟩
    -- The parent stands behind the child after the split, and further steps move it on only.
    obtain ⟨c'', hc'', _, honward⟩ :=
      (exact_and_onward_of_run (exact_of_step hs hsplit) hlater).2 i c' hc'
    exact ⟨c'', hc'', hbehind ▸ honward⟩

/-- A scope inside a scope: the innermost one holds only the first byte of a two-byte varint, so the
read fails there, although the byte after it stands in the scope around. -/
theorem scopes_exact_nested :
    ∃ s, (ofBytes [9, 8, 0x40, 7, 6]).run
        [(0, .take 1), (0, .split 3), (1, .readByte), (1, .split 1), (2, .copy)] = some s ∧
      s.map Cursor.pos = [4, 3, 2, 2] ∧
      (∀ c ∈ s, c.rest = bytesAt [9, 8, 0x40, 7, 6] c.pos c.remaining) ∧
      s.step 2 .varint = some (.error ⟨2, 1⟩, s) ∧
      ∀ later s', s.run later = some s' → ∃ c', s'[1]? = some c' ∧ c'.stop = 4 := by
  refine ⟨_, rfl, rfl, ?_⟩
  have hrun : (ofBytes [9, 8, 0x40, 7, 6]).run
      [(0, .take 1), (0, .split 3), (1, .readByte), (1, .split 1), (2, .copy)] = some _ := rfl
  obtain ⟨hrest, hstep, honward, _⟩ := scopes_exact hrun
  refine ⟨fun c hc => (hrest c hc).1, (hstep 2 _ rfl .varint).2 (by decide), ?_⟩
  intro later s' hlater
  obtain ⟨c', hc', hstop, _⟩ := honward later s' hlater 1 _ rfl
  exact ⟨c', hc', hstop⟩

end Session

end TlsWire

import TlsWire.Proofs.Checked.Follows
import TlsWire.Proofs.Cursor.Session

/-!
# Sessions over windows

A plain read that fails has no cursor to return, so no operation of a plain session can move a
cursor and fail. Here a session holds windows. An operation works on one of them in place, and
whatever has become of the window is put back, also when the operation fails (`Session.step`). That
a failed operation has moved nothing is now a fact about the reads: they look whether the bytes are
there before they touch the index (`Checked.take_follows`, `Checked.varint_follows`).

* `CursorOp.checked_follows` — an operation on a window does what it does on the cursor shown.
* `Session.step_follows`, `Session.run_follows` — so do steps and whole runs, without a fault.
* `Session.cursors_of_step_error` — after a failure all windows show what they showed before.
* `Session.exact_of_run` — however the windows have been used, each shows its part of the input.
-/

namespace TlsWire

namespace CursorOp

variable {β : Type} {ctx : Context} {op : CursorOp}

/-- Whether the operation asks for a number of one to eight bytes, if for any. -/
def Readable : CursorOp → Prop
  | .uint width => 1 ≤ width ∧ width ≤ 8
  | _ => True

/-- What the operation yields, and the cursors it adds, as a read that moves the cursor. -/
def reader (op : CursorOp) (c : Cursor) : Except Truncated ((Yield × List Cursor) × Cursor) := do
  let (yield, after, added) ← op.apply c
  return ((yield, added), after)

/-- What the operation yields, and the windows it adds. The window it works on is moved in place. -/
def checked (ctx : Context) : CursorOp → Checked (Yield × List Window)
  | .take n => do
    let bytes ← Checked.take ctx n
    return (.bytes bytes, [])
  | .readByte => do
    let b ← Checked.readByte ctx
    return (.byte b, [])
  | .advance n => do
    let _ ← Checked.take ctx n
    return (.nothing, [])
  | .split n => do
    let child ← Checked.split ctx n
    return (.child child.cursor, [child])
  | .copy => do
    let w ← get
    return (.nothing, [w])
  | .rest => do
    let w ← get
    let bytes ← w.rest
    return (.bytes bytes, [])
  | .uint width => do
    let n ← Checked.uint ctx width
    return (.number n, [])
  | .varint => do
    let n ← Checked.varint ctx
    return (.number n, [])

/-- The same is yielded, and the windows that are added show the cursors that are. -/
def Shown (r : Yield × List Window) (r' : Yield × List Cursor) : Prop :=
  r.1 = r'.1 ∧ (∀ w ∈ r.2, w.Valid) ∧ r.2.map Window.cursor = r'.2

theorem Shown.alone (yield : Yield) : Shown (yield, []) (yield, []) :=
  ⟨rfl, List.forall_mem_nil _, rfl⟩

theorem Shown.single {w : Window} {c : Cursor} (yield : Yield) (h : w.Shows c) :
    Shown (yield, [w]) (yield, [c]) :=
  ⟨rfl, List.forall_mem_singleton.mpr h.valid, congrArg (fun c => [c]) h.cursor⟩

/-- An operation that is one read of the cursor, and then computes what it yields. -/
theorem read_reader (read : Cursor → Except Truncated (β × Cursor)) (f : β → Yield × List Cursor)
    (c : Cursor)
    (h : op.apply c = do
      let (b, after) ← read c
      return ((f b).1, after, (f b).2)) :
    Decoder.read ctx op.reader c =
      (do let b ← Decoder.read ctx read; return f b : Decoder (Yield × List Cursor)) c := by
  rw [Decoder.read, reader, h]
  show _ = EStateM.bind _ _ c
  simp only [Decoder.read, EStateM.bind]
  cases read c <;> rfl

/-- An operation ends on a window as it does on the cursor that the window shows. If it fails, then
because of what is in front of the cursor, and before the index is moved. -/
theorem checked_follows (ctx : Context) (h : op.Readable) :
    Checked.Follows Shown (op.checked ctx) (Decoder.read ctx op.reader) := by
  intro w c hw
  cases op with
  | take n =>
    -- Every case but two is one read, so it follows the plain one by the lemma about this read.
    rw [read_reader (Cursor.take n) (fun b => (.bytes b, [])) c rfl]
    refine Checked.take_follows.bind (fun bytes bytes' hbytes => .pure ?_) w c hw
    exact hbytes.1 ▸ .alone _
  | readByte =>
    rw [read_reader Cursor.readByte (fun b => (.byte b, [])) c rfl]
    exact Checked.readByte_follows.bind (fun b b' hb => .pure (hb ▸ .alone _)) w c hw
  | advance n =>
    rw [read_reader (Cursor.take n) (fun _ => (.nothing, [])) c]
    · exact Checked.take_follows.bind (fun _ _ _ => .pure (.alone _)) w c hw
    -- To advance is to take the bytes and forget them.
    · rw [apply, Cursor.advance]
      cases c.take n <;> rfl
  | split n =>
    rw [read_reader (Cursor.split n) (fun child => (.child child, [child])) c rfl]
    refine Checked.split_follows.bind (fun child child' hchild => .pure ?_) w c hw
    exact hchild.cursor ▸ .single _ hchild.valid.shows
  | copy => exact .ok (.single _ hw) hw
  | rest =>
    -- The rest is looked at where it stands: no cursor and no window moves.
    show Checked.Agrees _ _ ((do let bytes ← w.rest; _ : Checked _) w) _
    rw [Checked.rest_eq_ok hw]
    exact .ok (.alone _) hw
  | uint width =>
    rw [read_reader (Uint.decode width) (fun n => (.number n, [])) c rfl]
    exact (Checked.uint_follows h).bind (fun n n' hn => .pure (hn ▸ .alone _)) w c hw
  | varint =>
    rw [read_reader Varint.decode (fun n => (.number n, [])) c rfl]
    exact Checked.varint_follows.bind (fun n n' hn => .pure (hn ▸ .alone _)) w c hw

end CursorOp

/-- A failed step of a plain session leaves it alone, because the read has no cursor to return. -/
theorem Session.eq_of_step_error {s s' : Session} {i : Nat} {op : CursorOp} {t : Truncated}
    (h : s.step i op = some (.error t, s')) : s' = s := by
  unfold step at h
  cases hc : s[i]? with
  | none =>
    rw [hc] at h
    cases h
  | some c =>
    rw [hc] at h
    cases happly : op.apply c with
    | error t' =>
      simp only [happly] at h
      cases h
      rfl
    | ok r =>
      simp only [happly] at h
      cases h

namespace Checked

/-- All windows created so far. -/
abbrev Session := List Window

namespace Session

/-- The session over a whole input. -/
def ofBytes (data : Bytes) : Session := [Window.ofBytes data]

/-- What the windows show. -/
def cursors (session : Session) : TlsWire.Session := session.map Window.cursor

/-- Whether no window has left its buffer. -/
def Valid (session : Session) : Prop := ∀ w ∈ session, w.Valid

/-- Works on the window at `index`, if there is one, and puts it back however that has ended. -/
def step (ctx : Context) (session : Session) (index : Nat) (op : CursorOp) :
    Option (Except Fault (Except DecodeError CursorOp.Yield × Session)) :=
  match session[index]? with
  | none => none
  | some w => some do
    match ← op.checked ctx w with
    | (.error e, w) => return (.error e, session.set index w)
    | (.ok (yield, added), w) => return (.ok yield, session.set index w ++ added)

/-- Takes the steps one after another, up to the first fault. -/
def run (ctx : Context) (session : Session) :
    (steps : List (Nat × CursorOp)) → Option (Except Fault Session)
  | [] => some (.ok session)
  | (index, op) :: steps =>
    match session.step ctx index op with
    | none => none
    | some (.error fault) => some (.error fault)
    | some (.ok (_, session)) => session.run ctx steps

variable {ctx : Context} {session session' : Session} {plain : TlsWire.Session} {i : Nat}
  {op : CursorOp}

theorem valid_ofBytes (data : Bytes) : (ofBytes data).Valid :=
  List.forall_mem_singleton.mpr (Window.valid_ofBytes data)

theorem getElem?_cursors (session : Session) (i : Nat) :
    session.cursors[i]? = session[i]?.map Window.cursor :=
  List.getElem?_map

theorem cursors_set (session : Session) (i : Nat) (w : Window) :
    cursors (session.set i w) = session.cursors.set i w.cursor :=
  List.map_set

/-- To put a window back that shows what is shown already. -/
theorem cursors_set_of_shows {w w' : Window} (hw : session[i]? = some w)
    (h : w'.Shows w.cursor) : cursors (session.set i w') = session.cursors := by
  obtain ⟨hi, rfl⟩ := List.getElem?_eq_some_iff.mp hw
  rw [cursors, List.map_set, h.cursor, ← List.map_set, List.set_getElem_self hi, cursors]

/-- What is added to the windows is added to what they show. -/
theorem cursors_append (session added : Session) :
    cursors (session ++ added) = session.cursors ++ added.map Window.cursor :=
  List.map_append

/-- A session stays valid when one of its windows is replaced by a valid one. -/
theorem Valid.set (h : session.Valid) {w : Window} (hw : w.Valid) : Valid (session.set i w) := by
  intro v hv
  rcases List.mem_or_eq_of_mem_set hv with hold | rfl
  · exact h v hold
  · exact hw

theorem Valid.append (h : session.Valid) {added : Session} (hadded : added.Valid) :
    Valid (session ++ added) :=
  List.forall_mem_append.mpr ⟨h, hadded⟩

/-! ## What the windows show

As for one window and one cursor (`Checked.Agrees`), but a session that has no window at the index
has no cursor there either, and the rest of the run is not taken. -/

/-- The windows are valid, and the cursors are where they are. -/
structure Shows (session : Session) (plain : TlsWire.Session) : Prop where
  valid : session.Valid
  cursors : session.cursors = plain

/-- Valid windows show the cursors that they stand for. -/
theorem Valid.shows (h : session.Valid) : session.Shows session.cursors := ⟨h, rfl⟩

/-- Neither session has a cursor to work on, or both go on and the windows have no fault. -/
inductive Agrees {α β : Type} (P : α → β → Prop) : Option α → Option (Except Fault β) → Prop where
  | absent : Agrees P none none
  | done {a : α} {b : β} (h : P a b) : Agrees P (some a) (some (.ok b))

/-- What goes on has gone on in the plain session. -/
theorem Agrees.of_done {α β : Type} {P : α → β → Prop} {r : Option α} {b : β}
    (h : Agrees P r (some (.ok b))) : ∃ a, r = some a ∧ P a b := by
  cases h with
  | done h => exact ⟨_, rfl, h⟩

/-- The same is yielded, or the same bytes were asked for and not there. The windows that are left
show the cursors that are left. -/
structure StepShows (ctx : Context) (plain : Except Truncated CursorOp.Yield × TlsWire.Session)
    (stepped : Except DecodeError CursorOp.Yield × Session) : Prop where
  outcome : stepped.1 = plain.1.mapError (.truncated ctx.location)
  session : stepped.2.Shows plain.2

/-- A step has no fault and ends as it does on the cursors that the windows show. -/
theorem step_follows (ctx : Context) (i : Nat) (h : session.Shows plain) (hop : op.Readable) :
    Agrees (StepShows ctx) (plain.step i op) (session.step ctx i op) := by
  obtain ⟨hvalid, rfl⟩ := h
  unfold step TlsWire.Session.step
  rw [getElem?_cursors]
  cases hw : session[i]? with
  | none => exact .absent
  | some w =>
    have hshows : w.Shows w.cursor := (hvalid w (List.mem_of_getElem? hw)).shows
    have hrun := CursorOp.checked_follows ctx hop w w.cursor hshows
    rw [Decoder.read, CursorOp.reader] at hrun
    simp only [Option.map_some]
    cases happly : op.apply w.cursor with
    | error t =>
      rw [happly] at hrun
      generalize op.checked ctx w = r at hrun ⊢
      cases hrun with
      -- The window is put back, but it shows what it did.
      | error hstate => exact .done ⟨rfl, hvalid.set hstate.valid, cursors_set_of_shows hw hstate⟩
    | ok r =>
      obtain ⟨yield, c', added⟩ := r
      rw [happly] at hrun
      generalize op.checked ctx w = r at hrun ⊢
      cases hrun with
      | @ok a _ w' _ hvalue hstate =>
        obtain ⟨yield', added'⟩ := a
        obtain ⟨hyield, hadded, hcursors⟩ := hvalue
        cases hyield
        -- What the operation adds comes behind the window that is put back.
        refine .done ⟨rfl, (hvalid.set hstate.valid).append hadded, ?_⟩
        rw [cursors_append, cursors_set, hstate.cursor, hcursors]

/-- A failed step leaves all windows where they are. -/
theorem cursors_of_step_error (h : session.Valid) (hop : op.Readable) {e : DecodeError}
    (hstep : session.step ctx i op = some (.ok (.error e, session'))) :
    session'.cursors = session.cursors := by
  have hagrees := step_follows ctx i h.shows hop
  rw [hstep] at hagrees
  obtain ⟨⟨r, plain⟩, hplain, houtcome, hshows⟩ := hagrees.of_done
  cases r with
  | ok yield => cases houtcome
  -- The plain step has failed as well, and it leaves its cursors alone.
  | error t => rw [hshows.cursors, TlsWire.Session.eq_of_step_error hplain]

/-- A run has no fault, and its windows show the cursors of the plain run. -/
theorem run_follows (ctx : Context) {steps : List (Nat × CursorOp)} (h : session.Shows plain)
    (hops : ∀ s ∈ steps, s.2.Readable) :
    Agrees (fun plain session => session.Shows plain) (plain.run steps)
      (session.run ctx steps) := by
  -- Induction on the steps. The windows after the first step show the cursors after it.
  induction steps generalizing session plain with
  | nil => exact .done h
  | cons first steps ih =>
    obtain ⟨i, op⟩ := first
    obtain ⟨hop, hops⟩ := List.forall_mem_cons.mp hops
    have hstep := step_follows ctx i h hop
    rw [run, TlsWire.Session.run]
    generalize plain.step i op = r at hstep
    generalize session.step ctx i op = r' at hstep
    cases hstep with
    | absent => exact .absent
    | done hstepped => exact ih hstepped.session hops

/-- However windows over an input have been used, each of them shows its part of it. -/
theorem exact_of_run {data : Bytes} {steps : List (Nat × CursorOp)}
    (hops : ∀ s ∈ steps, s.2.Readable) (hrun : (ofBytes data).run ctx steps = some (.ok session)) :
    ∀ w ∈ session, w.Valid ∧ w.cursor.Exact data := by
  have hagrees := run_follows ctx (valid_ofBytes data).shows hops
  rw [hrun] at hagrees
  obtain ⟨plain, hplain, hvalid, rfl⟩ := hagrees.of_done
  have hexact : session.cursors.Exact data :=
    (TlsWire.Session.exact_and_onward_of_run (TlsWire.Session.exact_ofBytes data) hplain).1
  exact fun w hw => ⟨hvalid w hw, hexact _ (List.mem_map_of_mem hw)⟩

/-- A varint whose first byte tells of a second one is not moved over at the end of its window. -/
example :
    ∃ session, (ofBytes [9, 0x40, 7]).run (.top {}) [(0, .split 2), (1, .readByte)] =
        some (.ok session) ∧
      session.step (.top {}) 1 .varint = some (.ok (.error (.truncated [] ⟨2, 1⟩), session)) :=
  ⟨_, rfl, rfl⟩

end Session

end Checked

end TlsWire

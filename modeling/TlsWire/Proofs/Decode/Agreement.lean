import TlsWire.Proofs.Decode.Success

/-!
# Decoders that agree with forms

A decoder is `Sound` if whatever it decodes has a form that the cursor has moved over, and
`Complete` if it decodes every form to its value. For each kind of type there is one fact in either
direction: its decoder agrees with its forms if the decoders of its parts agree with theirs.

A hook may read what it does not write, so a decoder with a hook is not sound in general. It is
complete: a form of a type with a hook is by definition one that the hook reads.
-/

namespace TlsWire

variable {α β κ : Type}

/-- Whatever is decoded has a form, which the cursor has moved over, and is within the limit. -/
def Decoder.Sound (decode : Context → Decoder α) (form : α → Bytes → Prop)
    (within : Nat → α → Prop) : Prop :=
  ∀ ctx c x c', decode ctx c = .ok x c' →
    ∃ b, form x b ∧ c.Advances b c' ∧ within ctx.maxCollect x

/-- Every form of a value within the limit is decoded to this value. A greedy decoder leaves
nothing behind, so it has to come to the end of its scope. -/
def Decoder.Complete (decode : Context → Decoder α) (form : α → Bytes → Prop)
    (within : Nat → α → Prop) (greedy : Bool) : Prop :=
  ∀ ctx c x b c', form x b → c.Advances b c' → within ctx.maxCollect x →
    (greedy = true → c'.rest = []) → decode ctx c = .ok x c'

/-! ## Runs over elements -/

section Runs

variable {ctx : Context} {elem : Context → Decoder α} {form : α → Bytes → Prop}
  {within : Nat → α → Prop} {c c' : Cursor} {as : List α} {b : Bytes} {count : Nat}

/-- What a run over content decodes is laid out there piece by piece, none of them empty. The run
stays under the limit, as each element is checked against it. -/
theorem Elements.sound (helem : Decoder.Sound elem form within)
    (h : Elements ctx elem count c as) (hcount : count ≤ ctx.maxCollect) :
    Pieces (WireForm.Solid form) as c.rest ∧ count + as.length ≤ ctx.maxCollect ∧
      ∀ x ∈ as, within ctx.maxCollect x := by
  induction h with
  | nil hrest =>
    rw [hrest]
    exact ⟨.nil, hcount, nofun⟩
  | @cons count c c' a as hrest hlimit hrun hsolid _ ih =>
    obtain ⟨p, hp, hadv, hwithin⟩ := helem _ _ _ _ hrun
    obtain ⟨hpieces, hlen, hall⟩ := ih hlimit
    -- An element that has moved over nothing would have been turned away.
    have hne : p ≠ [] := by
      intro hnil
      rw [hnil] at hadv
      rw [hadv.eq_of_nil] at hsolid
      exact Nat.lt_irrefl _ hsolid
    have hcount' : count + (as.length + 1) ≤ ctx.maxCollect := by omega
    refine ⟨?_, hcount', List.forall_mem_cons.mpr ⟨hwithin, hall⟩⟩
    rw [hadv.rest]
    exact .cons ⟨hp, hne⟩ hpieces

/-- Pieces that are not empty are decoded one by one, as many as the limit admits. Elements end by
themselves, so each is decoded with the others behind it. -/
theorem Elements.complete (helem : Decoder.Complete elem form within false)
    (h : Pieces (WireForm.Solid form) as b) (hrest : c.rest = b)
    (hcount : count + as.length ≤ ctx.maxCollect) (hall : ∀ x ∈ as, within ctx.maxCollect x) :
    Elements ctx elem count c as := by
  induction h generalizing c count with
  | nil => exact .nil hrest
  | @cons x xs p b hx _ ih =>
    obtain ⟨hp, hne⟩ := hx
    obtain ⟨hwithin, hall⟩ := List.forall_mem_cons.mp hall
    rw [List.length_cons] at hcount
    -- The first piece is in front of the cursor, and moving over it uses up content.
    obtain ⟨c', hadv, hrest'⟩ := Cursor.exists_advances hrest
    have hrest : c.rest ≠ [] := by
      rw [hrest]
      exact List.append_ne_nil_of_left_ne_nil hne b
    have hsolid : c'.remaining < c.remaining := by
      have hpos : 0 < p.length := List.length_pos_iff.mpr hne
      rw [hadv.remaining]
      omega
    have hrun : elem (ctx.push Step.elementName c.pos) c = .ok x c' :=
      helem _ _ _ _ _ hp hadv hwithin nofun
    exact .cons hrest (by omega) hrun hsolid (ih hrest' (by omega) hall)

/-- The same for a given number of elements, which may be empty and have no limit. -/
theorem Items.sound (helem : Decoder.Sound elem form within) (h : Items ctx elem c as c') :
    ∃ b, Pieces form as b ∧ c.Advances b c' ∧ ∀ x ∈ as, within ctx.maxCollect x := by
  induction h with
  | @nil c => exact ⟨[], .nil, c.advances_refl, nofun⟩
  | cons hrun _ ih =>
    obtain ⟨p, hp, hadv, hwithin⟩ := helem _ _ _ _ hrun
    obtain ⟨b, hb, hadv', hall⟩ := ih
    exact ⟨p ++ b, .cons hp hb, hadv.trans hadv', List.forall_mem_cons.mpr ⟨hwithin, hall⟩⟩

/-- Pieces behind one another are decoded as items, from wherever the first one starts. -/
theorem Items.complete (helem : Decoder.Complete elem form within false) (h : Pieces form as b)
    (hadv : c.Advances b c') (hall : ∀ x ∈ as, within ctx.maxCollect x) :
    Items ctx elem c as c' := by
  induction h generalizing c with
  | nil =>
    obtain rfl := hadv.eq_of_nil
    exact .nil
  | cons hp _ ih =>
    obtain ⟨hwithin, hall⟩ := List.forall_mem_cons.mp hall
    obtain ⟨c₁, hadv₁, hadv₂⟩ := hadv.split
    exact .cons (helem _ _ _ _ _ hp hadv₁ hwithin nofun) (ih hadv₂ hall)

end Runs

/-! ## Kinds of types -/

namespace Decoder

section Kinds

variable {content elem : Context → Shape → Decoder α} {value : Context → Shape → Decoder β}
  {key : Context → Shape → Decoder κ} {form : Shape → α → Bytes → Prop}
  {formOfKey : Shape → κ → Bytes → Prop} {formOfValue : Shape → β → Bytes → Prop}
  {within : Nat → α → Prop} {withinKey : Nat → κ → Prop} {withinValue : Nat → β → Prop}
  {type : String} {shape keyShape valueShape : Shape} {head : Head} {greedy : Bool}

/-- What is decoded as a number has been written as this number, in one of the forms that it has.
-/
theorem ofUint_sound {t : UintType} :
    Sound (fun ctx => ofUint t ctx shape) (fun n => WireForm.OfUint t shape n.toNat)
      (fun _ _ => True) := by
  intro ctx c n c' h
  obtain ⟨b, hb, hadv⟩ := ofUint_ok.mp h
  exact ⟨b, hb, hadv, trivial⟩

/-- Every form of a number is decoded, also the longer ones of a varint. -/
theorem ofUint_complete {t : UintType} :
    Complete (fun ctx => ofUint t ctx shape) (fun n => WireForm.OfUint t shape n.toNat)
      (fun _ _ => True) greedy :=
  fun _ _ _ b _ hb hadv _ _ => ofUint_ok.mpr ⟨b, hb, hadv⟩

/-- An array is decoded from as many pieces as it has elements. -/
theorem ofArray_sound {length : Nat}
    (helem : Sound (fun ctx => elem ctx shape) (form shape) within) :
    Sound (fun ctx => ofArray type elem length ctx (.array shape length))
      (fun xs => WireForm.OfArray form length (.array shape length) xs.val)
      (fun limit xs => ∀ x ∈ xs.val, within limit x) := by
  intro ctx c xs c' h
  obtain ⟨_, heq, hrun⟩ := ofArray_ok.mp h
  cases heq
  obtain ⟨b, hb, hadv, hall⟩ := hrun.sound helem
  exact ⟨b, .intro hb, hadv, hall⟩

/-- No element of an array is asked to come to the end of the scope. -/
theorem ofArray_complete {length : Nat}
    (helem : Complete (fun ctx => elem ctx shape) (form shape) within false) :
    Complete (fun ctx => ofArray type elem length ctx (.array shape length))
      (fun xs => WireForm.OfArray form length (.array shape length) xs.val)
      (fun limit xs => ∀ x ∈ xs.val, within limit x) greedy := by
  intro ctx c xs b c' hform hadv hall _
  cases hform with
  | intro hb =>
    have hrun : Items ctx (fun ctx => elem ctx shape) c xs.val c' :=
      Items.complete helem hb hadv hall
    exact ofArray_ok.mpr ⟨shape, rfl, hrun⟩

/-- A vector is decoded from a head and from content of the length that the head states. -/
theorem ofVector_sound (helem : Sound (fun ctx => elem ctx shape) (form shape) within) :
    Sound (fun ctx => ofVector type elem ctx (.vector shape head))
      (WireForm.OfVector form (.vector shape head))
      (fun limit xs => xs.length ≤ limit ∧ ∀ x ∈ xs, within limit x) := by
  intro ctx c xs c' h
  obtain ⟨_, _, seq, heq, hhead, hrun⟩ := ofVector_ok.mp h
  cases heq
  -- The run starts at the content with nothing counted.
  obtain ⟨front, c₁, body, hfront, hadv, hbody, _, rfl⟩ := Sequence.ofHead_ok.mp hhead
  obtain ⟨hpieces, hlen, hall⟩ := hrun.sound helem (Nat.zero_le _)
  exact ⟨front ++ body, .intro (.intro hfront hpieces), hadv.trans hbody, by omega, hall⟩

/-- The head is the only part that can ask for the end of the scope. -/
theorem ofVector_complete (helem : Complete (fun ctx => elem ctx shape) (form shape) within false) :
    Complete (fun ctx => ofVector type elem ctx (.vector shape head))
      (WireForm.OfVector form (.vector shape head))
      (fun limit xs => xs.length ≤ limit ∧ ∀ x ∈ xs, within limit x)
      (Shape.vector shape head).isGreedy := by
  intro ctx c xs b c' hform hadv hwithin hgreedy
  obtain ⟨⟨hfront, hbody⟩⟩ := hform
  obtain ⟨hlen, hall⟩ := hwithin
  -- A vector without a head is greedy, and this is when it needs the end.
  have hend : head = .unbounded → c'.rest = [] := by
    intro hhead
    subst hhead
    exact hgreedy rfl
  obtain ⟨seq, hhead, hcount, hrest⟩ := Sequence.exists_ofHead ctx hfront hadv hend
  have hrun : Elements ctx (fun ctx => elem ctx shape) seq.count seq.scope xs := by
    apply Elements.complete helem hbody hrest ?_ hall
    rwa [hcount, Nat.zero_add]
  exact ofVector_ok.mpr ⟨shape, head, seq, rfl, hhead, hrun⟩

/-- A form of the key and then one of the value. -/
theorem entry_sound {key : Context → Decoder κ} {value : Context → Decoder β}
    {formOfKey : κ → Bytes → Prop} {formOfValue : β → Bytes → Prop}
    (hkey : Sound key formOfKey withinKey) (hvalue : Sound value formOfValue withinValue) :
    Sound (entry key value) (WireForm.OfEntry formOfKey formOfValue)
      (fun limit e => withinKey limit e.1 ∧ withinValue limit e.2) := by
  intro ctx c e c' h
  obtain ⟨c₁, hk, hv⟩ := entry_ok.mp h
  obtain ⟨a, ha, hadv, hkeyWithin⟩ := hkey _ _ _ _ hk
  obtain ⟨b, hb, hadv', hvalueWithin⟩ := hvalue _ _ _ _ hv
  exact ⟨a ++ b, .intro ha hb, hadv.trans hadv', hkeyWithin, hvalueWithin⟩

/-- The value follows the key, so the key has to end by itself. Neither is greedy in a map that
resolves. -/
theorem entry_complete {key : Context → Decoder κ} {value : Context → Decoder β}
    {formOfKey : κ → Bytes → Prop} {formOfValue : β → Bytes → Prop}
    (hkey : Complete key formOfKey withinKey false)
    (hvalue : Complete value formOfValue withinValue false) :
    Complete (entry key value) (WireForm.OfEntry formOfKey formOfValue)
      (fun limit e => withinKey limit e.1 ∧ withinValue limit e.2) false := by
  intro ctx c e b c' hform hadv hwithin _
  cases hform with
  | intro ha hb =>
    obtain ⟨c₁, hadv₁, hadv₂⟩ := hadv.split
    have hk : key ctx c = .ok e.1 c₁ := hkey _ _ _ _ _ ha hadv₁ hwithin.1 nofun
    have hv : value ctx c₁ = .ok e.2 c' := hvalue _ _ _ _ _ hb hadv₂ hwithin.2 nofun
    exact entry_ok.mpr ⟨c₁, hk, hv⟩

/-- The decoded entries are those of the map in the order of the wire. -/
theorem ofMap_sound {order : KeyOrder κ} {kind : MapKind}
    (hkey : Sound (fun ctx => key ctx keyShape) (formOfKey keyShape) withinKey)
    (hvalue : Sound (fun ctx => value ctx valueShape) (formOfValue valueShape) withinValue) :
    Sound (fun ctx => ofMap type (kind.gatherer : Gatherer order β) key value ctx
        (.map keyShape valueShape head))
      (WireForm.OfMap formOfKey formOfValue (.map keyShape valueShape head))
      (fun limit dict => dict.size ≤ limit ∧
        ∀ e ∈ dict.entries, withinKey limit e.1 ∧ withinValue limit e.2) := by
  intro ctx c dict c' h
  obtain ⟨_, _, _, seq, es, heq, hhead, hrun, hperm⟩ := ofMap_ok.mp h
  cases heq
  obtain ⟨front, c₁, body, hfront, hadv, hbody, _, rfl⟩ := Sequence.ofHead_ok.mp hhead
  obtain ⟨hpieces, hlen, hall⟩ := hrun.sound (entry_sound hkey hvalue) (Nat.zero_le _)
  refine ⟨front ++ body, .intro hperm (.intro hfront hpieces), hadv.trans hbody, ?_,
    fun e he => hall e (hperm.mem_iff.mpr he)⟩
  rw [Dict.size, ← hperm.length_eq]
  omega

/-- A form of a map may have its entries in any order, since they are gathered into the same map.
-/
theorem ofMap_complete {order : KeyOrder κ} {kind : MapKind}
    (hkey : Complete (fun ctx => key ctx keyShape) (formOfKey keyShape) withinKey false)
    (hvalue : Complete (fun ctx => value ctx valueShape) (formOfValue valueShape) withinValue
      false) :
    Complete (fun ctx => ofMap type (kind.gatherer : Gatherer order β) key value ctx
        (.map keyShape valueShape head))
      (WireForm.OfMap formOfKey formOfValue (.map keyShape valueShape head))
      (fun limit dict => dict.size ≤ limit ∧
        ∀ e ∈ dict.entries, withinKey limit e.1 ∧ withinValue limit e.2)
      (Shape.map keyShape valueShape head).isGreedy := by
  intro ctx c dict b c' hform hadv hwithin hgreedy
  obtain ⟨hperm, hfront, hbody⟩ := hform
  obtain ⟨hlen, hall⟩ := hwithin
  -- The limit counts the entries on the wire, which are as many as the map has.
  rw [Dict.size, ← hperm.length_eq] at hlen
  have hend : head = .unbounded → c'.rest = [] := by
    intro hhead
    subst hhead
    exact hgreedy rfl
  obtain ⟨seq, hhead, hcount, hrest⟩ := Sequence.exists_ofHead ctx hfront hadv hend
  refine ofMap_ok.mpr ⟨keyShape, valueShape, head, seq, _, rfl, hhead, ?_, hperm⟩
  apply Elements.complete (entry_complete hkey hvalue) hbody hrest
  · rwa [hcount, Nat.zero_add]
  · intro e he
    exact hall e (hperm.mem_iff.mp he)

/-- A pointer has the forms of its target. -/
theorem ofBox_sound (hcontent : Sound (fun ctx => content ctx shape) (form shape) within) :
    Sound (fun ctx => ofBox type content ctx (.pointer shape))
      (WireForm.OfBox form (.pointer shape)) within := by
  intro ctx c x c' h
  obtain ⟨_, heq, hrun⟩ := ofBox_ok.mp h
  cases heq
  obtain ⟨b, hb, hadv, hwithin⟩ := hcontent _ _ _ _ hrun
  exact ⟨b, .intro hb, hadv, hwithin⟩

/-- And it is greedy where its target is. -/
theorem ofBox_complete
    (hcontent : Complete (fun ctx => content ctx shape) (form shape) within shape.isGreedy) :
    Complete (fun ctx => ofBox type content ctx (.pointer shape))
      (WireForm.OfBox form (.pointer shape)) within (Shape.pointer shape).isGreedy := by
  intro ctx c x b c' hform hadv hwithin hgreedy
  cases hform with
  | intro hb =>
    have hrun : content ctx shape c = .ok x c' := hcontent _ _ _ _ _ hb hadv hwithin hgreedy
    exact ofBox_ok.mpr ⟨shape, rfl, hrun⟩

/-- A missing value is one zero byte, and a value has its flag before it where the shape has one.
-/
theorem ofOption_sound {target : Shape}
    (hshape : shape = .optional target ∨ shape = .pointer target)
    (hcontent : Sound (fun ctx => content ctx target) (form target) within) :
    Sound (fun ctx => ofOption type content ctx shape) (WireForm.OfOption form shape)
      (fun limit x => ∀ y ∈ x, within limit y) := by
  intro ctx c x c' h
  rcases ofOption_ok.mp h with ⟨_, rfl, rfl, hflag⟩ | ⟨_, y, c₁, rfl, rfl, hflag, hrun⟩ |
    ⟨_, y, rfl, rfl, hrun⟩
  · exact ⟨[0], .absent, hflag, nofun⟩
  · obtain ⟨rfl⟩ : _ = target := by simpa using hshape
    obtain ⟨b, hb, hadv, hwithin⟩ := hcontent _ _ _ _ hrun
    refine ⟨1 :: b, .present hb, hflag.trans hadv, fun z hz => ?_⟩
    cases hz
    exact hwithin
  · obtain ⟨rfl⟩ : _ = target := by simpa using hshape
    obtain ⟨b, hb, hadv, hwithin⟩ := hcontent _ _ _ _ hrun
    refine ⟨b, .required hb, hadv, fun z hz => ?_⟩
    cases hz
    exact hwithin

/-- The flag or the shape tells that a value is there, and it is decoded behind that. -/
theorem ofOption_complete {target : Shape}
    (hshape : shape = .optional target ∨ shape = .pointer target)
    (hcontent : Complete (fun ctx => content ctx target) (form target) within target.isGreedy) :
    Complete (fun ctx => ofOption type content ctx shape) (WireForm.OfOption form shape)
      (fun limit x => ∀ y ∈ x, within limit y) shape.isGreedy := by
  intro ctx c x b c' hform hadv hwithin hgreedy
  refine ofOption_ok.mpr ?_
  cases hform with
  | absent => exact .inl ⟨_, rfl, rfl, hadv⟩
  | @present t y b hb =>
    obtain ⟨rfl⟩ : t = target := by simpa using hshape
    obtain ⟨c₁, hflag, hadv⟩ := Cursor.Advances.split (b := [1]) hadv
    have hrun : content ctx target c₁ = .ok y c' :=
      hcontent _ _ _ _ _ hb hadv (hwithin y rfl) hgreedy
    exact .inr (.inl ⟨target, y, c₁, rfl, rfl, hflag, hrun⟩)
  | @required t y b hb =>
    obtain ⟨rfl⟩ : t = target := by simpa using hshape
    have hrun : content ctx target c = .ok y c' :=
      hcontent _ _ _ _ _ hb hadv (hwithin y rfl) hgreedy
    exact .inr (.inr ⟨target, y, rfl, rfl, hrun⟩)

/-- A record has the forms of its fields. -/
theorem ofRecord_sound {fields : Context → Shape.Fields → Decoder α}
    {form : Shape.Fields → α → Bytes → Prop} {shapes : Shape.Fields}
    (hfields : Sound (fun ctx => fields ctx shapes) (form shapes) within) :
    Sound (fun ctx => ofRecord type fields ctx (.record shapes))
      (WireForm.OfRecord form (.record shapes)) within := by
  intro ctx c x c' h
  obtain ⟨_, heq, hrun⟩ := ofRecord_ok.mp h
  cases heq
  obtain ⟨b, hb, hadv, hwithin⟩ := hfields _ _ _ _ hrun
  exact ⟨b, .intro hb, hadv, hwithin⟩

/-- And it is greedy where they are. -/
theorem ofRecord_complete {fields : Context → Shape.Fields → Decoder α}
    {form : Shape.Fields → α → Bytes → Prop} {shapes : Shape.Fields}
    (hfields : Complete (fun ctx => fields ctx shapes) (form shapes) within shapes.isGreedy) :
    Complete (fun ctx => ofRecord type fields ctx (.record shapes))
      (WireForm.OfRecord form (.record shapes)) within (Shape.record shapes).isGreedy := by
  intro ctx c x b c' hform hadv hwithin hgreedy
  cases hform with
  | intro hb =>
    have hrun : fields ctx shapes c = .ok x c' := hfields _ _ _ _ _ hb hadv hwithin hgreedy
    exact ofRecord_ok.mpr ⟨shapes, rfl, hrun⟩

/-- A hook is only asked for forms that it reads with whatever follows them. -/
theorem ofHook_complete {hook : Hook α} :
    Complete (fun ctx => ofHook hook ctx .custom) (WireForm.OfHook hook .custom)
      (fun _ _ => True) greedy := by
  intro ctx c x b c' hform hadv _ _
  cases hform with
  | intro h =>
    have hdecode : hook.decode c.rest = .ok (b.length, x) := by
      rw [hadv.rest, h]
    exact ofHook_ok.mpr ⟨b, rfl, hdecode, hadv⟩

end Kinds

end Decoder

end TlsWire

import TlsWire.Proofs.Decode.Greedy
import TlsWire.Proofs.Decode.Limit
import TlsWire.Proofs.Decode.Relocation

/-!
# Decoding maps

The two kinds of map collect their entries in different ways and read the same: the same entries in
the same number of bytes, or the same error. Only an error in the directive of the map itself says
what the map is called (`DirectiveError.Renamed`).

The order of the pairs makes no difference. A map is cut up into its head and its pairs (`Cut`); the
pairs of an accepted input may change places, and one more pair with a key that is already there is
never accepted (`Schema.PairsRead`). Keys are compared after decoding, so this is so for all forms
of a key.
-/

namespace TlsWire

variable {α β κ : Type}

/-! ## Both kinds of map -/

namespace Schema

open DirectiveError Relocation

variable {type type' : String} {d : Directive} {kind kind' : MapKind} {order order' : KeyOrder κ}
  {key : Schema κ} {value : Schema β}

/-- The shape of a map does not depend on its kind. -/
theorem resolve_map_renamed :
    Alike (Renamed type type') Eq ((map type kind order key value).resolve d)
      ((map type' kind' order' key value).resolve d) := by
  have hsame : ∀ x : Except DirectiveError Shape, Alike (Renamed type type') Eq x x :=
    Alike.refl .refl fun _ => rfl
  rw [resolve, resolve]
  refine framing_renamed.bind fun head _ hhead => ?_
  refine (hsame _).bind fun keyShape _ hkey => ?_
  -- Both have selected the same head and resolved their keys to the same shape, so that only the
  -- texts of the two checks are left to differ.
  subst hhead hkey
  refine (expectBounded_renamed rfl).bind fun _ _ _ => ?_
  refine (hsame _).bind fun valueShape _ hvalue => ?_
  subst hvalue
  exact (expectBounded_renamed rfl).bind fun _ _ _ => .pure rfl

/-- Maps that differ in kind and order decode to the same entries. -/
theorem decode_map_follows {shape : Shape} (config : Config)
    (hresolve : (map type kind order key value).resolve d = .ok shape) :
    here.Follows (fun dict dict' => dict'.entries.Perm dict.entries)
      ((map type kind order key value).decode (.top config) shape)
      ((map type' kind' order' key value).decode (.top config) shape) := by
  obtain ⟨head, keyShape, valueShape, _, _, _, _, _, rfl⟩ := resolve_map.mp hresolve
  let reorder : Dict order β → Dict order' β := fun dict => .ofEntries dict.entries
  have hreorder : ∀ dict, (reorder dict).entries.Perm dict.entries :=
    fun dict => Dict.entries_ofEntries_perm dict.nodup_keys
  -- The dictionary with the other order is made of the same entries, none of which can get lost.
  have hmap : here.Follows (Sends reorder)
      ((map type kind order key value).decode (.top config) (.map keyShape valueShape head))
      ((map type' kind' order' key value).decode (here.context (.top config))
        (.map keyShape valueShape head)) := by
    rw [decode, decode]
    refine .ofMap (fun ctx => key.decode_relocates ctx keyShape)
      (fun ctx => value.decode_relocates ctx valueShape) Function.injective_id fun dict => ?_
    rw [Prod.map_id, List.map_id]
    exact hreorder dict
  rw [here_context] at hmap
  exact hmap.mono fun dict _ hdict => hdict ▸ hreorder dict

/-- Whole inputs are read alike by both kinds of map, entry by entry, whatever the input is. -/
theorem unmarshalWith_map_alike (config : Config) (data : Bytes) :
    Alike (DecodeError.SameBut (Renamed type type'))
      (fun r r' => r'.1 = r.1 ∧ r'.2.entries.Perm r.2.entries)
      ((map type kind order key value).unmarshalWith d config data)
      ((map type' kind' order' key value).unmarshalWith d config data) := by
  refine unmarshalWith_alike (R := fun dict dict' => dict'.entries.Perm dict.entries)
    resolve_map_renamed (fun shape shape' hshape _ hsame => ?_) data
  subst hsame
  exact decode_map_follows config hshape

end Schema

/-! ## The order of pairs -/

/-- The bytes are a head, and behind it pairs that are forms of the given entries. No pair is
empty. -/
structure Cut (head : Head) (form : κ × β → Bytes → Prop) (b : Bytes) (es : List (κ × β))
    (front : Bytes) (pairs : List Bytes) : Prop where
  eq : b = front ++ pairs.flatten
  front_form : head.Form pairs.flatten.length front
  pair_forms : List.Forall₂ (WireForm.Solid form) es pairs

namespace Cut

variable {head : Head} {form : κ × β → Bytes → Prop} {b : Bytes} {es : List (κ × β)}
  {front front' : Bytes} {pairs pairs' : List Bytes}

/-- The pairs one after another are the content. -/
theorem pieces (cut : Cut head form b es front pairs) :
    Pieces (WireForm.Solid form) es pairs.flatten :=
  Pieces.iff_exists_forall₂.mpr ⟨pairs, cut.pair_forms, rfl⟩

/-- Put together again, a map that has been cut up is a head and its content. -/
theorem framed (cut : Cut head form b es front pairs) :
    WireForm.Framed head (Pieces (WireForm.Solid form) es) b := by
  rw [cut.eq]
  exact .intro cut.front_form cut.pieces

/-- Whatever has the form of a map can be cut up, in some way. -/
theorem exists_of_framed (h : WireForm.Framed head (Pieces (WireForm.Solid form) es) b) :
    ∃ front pairs, Cut head form b es front pairs := by
  cases h with
  | @intro front _ hfront hbody =>
    obtain ⟨pairs, hpairs, rfl⟩ := Pieces.iff_exists_forall₂.mp hbody
    exact ⟨front, pairs, rfl, hfront, hpairs⟩

/-- Pairs take their entries with them. -/
theorem exists_perm (hforms : List.Forall₂ (WireForm.Solid form) es pairs)
    (hperm : pairs'.Perm pairs) (hfront : head.Form pairs'.flatten.length front') :
    ∃ es', es'.Perm es ∧ Cut head form (front' ++ pairs'.flatten) es' front' pairs' := by
  -- Moving the pairs first and reading their entries then is reading first and moving then.
  obtain ⟨es', hforms', hes⟩ := List.perm_comp_forall₂ hperm hforms.flip
  exact ⟨es', hes, rfl, hfront, hforms'.flip⟩

/-- In every order the pairs take up as much space, so the head stays. -/
theorem reorder (cut : Cut head form b es front pairs) (hperm : pairs'.Perm pairs) :
    (front ++ pairs'.flatten).length = b.length ∧
      ∃ es', es'.Perm es ∧ Cut head form (front ++ pairs'.flatten) es' front pairs' := by
  have hlen : pairs'.flatten.length = pairs.flatten.length := hperm.flatten.length_eq
  refine ⟨?_, exists_perm cut.pair_forms hperm (hlen ▸ cut.front_form)⟩
  rw [cut.eq, List.length_append, List.length_append, hlen]

end Cut

/-- Entries that repeat a key are turned away, once they are all decoded. -/
theorem Decoder.ofMap_of_repeated {type : String} {kind : MapKind} {order : KeyOrder κ}
    {key : Context → Shape → Decoder κ} {value : Context → Shape → Decoder β} {ctx : Context}
    {keyShape valueShape : Shape} {head : Head} {c c' : Cursor} {seq : Sequence} {es : List (κ × β)}
    (hhead : Sequence.ofHead ctx head c = .ok seq c')
    (hrun : Elements ctx (entry (fun ctx => key ctx keyShape) fun ctx => value ctx valueShape)
      seq.count seq.scope es) (hrepeated : ¬ (Dict.keys es).Nodup) :
    ofMap type (kind.gatherer : Gatherer order β) key value ctx (.map keyShape valueShape head) c =
      .error (.malformed ctx.location .duplicateKey) c' := by
  -- All entries have been decoded. They are gathered one after the other until a key comes up
  -- again.
  have hfold : seq.fold ctx _ (kind.gatherer.gather (.malformed ctx.location .duplicateKey))
      (kind.gatherer : Gatherer order β).start = .error (.malformed ctx.location .duplicateKey) :=
    (Sequence.fold_eq_foldlM hrun).trans (kind.gather_error hrepeated)
  refine (bind_of_ok hhead).trans (bind_of_error ?_)
  exact congrArg (fun r => ofExcept r c') hfold

namespace Schema

/-- The forms of a key and a value, one behind the other. -/
abbrev EntryForm (key : Schema κ) (value : Schema β) (keyShape valueShape : Shape) :
    κ × β → Bytes → Prop :=
  WireForm.OfEntry (key.WireForm keyShape) (value.WireForm valueShape)

/-- What is read from a map does not depend on the order of its pairs, and with another pair for a
key that it has nothing is read. `form` are the forms of an entry. -/
structure PairsRead {order : KeyOrder κ} (read : Bytes → Except DecodeError (Nat × Dict order β))
    (head : Head) (form : κ × β → Bytes → Prop) (data : Bytes) (n : Nat) (dict : Dict order β) :
    Prop where
  exists_cut : ∃ es front pairs, Cut head form (data.take n) es front pairs
  entries : ∀ es front pairs, Cut head form (data.take n) es front pairs →
    es.Perm dict.entries
  reordered : ∀ es front pairs, Cut head form (data.take n) es front pairs →
    ∀ pairs' : List Bytes, pairs'.Perm pairs →
      read (front ++ pairs'.flatten ++ data.drop n) = .ok (n, dict)
  repeated : ∀ es front pairs, Cut head form (data.take n) es front pairs →
    ∀ e p, form e p → e.1 ∈ Dict.keys dict.entries →
    ∀ (pairs' : List Bytes) (front' : Bytes), pairs'.Perm (p :: pairs) →
      head.Form pairs'.flatten.length front' →
    ∃ err, read (front' ++ pairs'.flatten ++ data.drop n) = .error err ∧
      (err = .malformed [] .duplicateKey ∨ ∃ loc, err = .collectionTooLarge loc)

section Pairs

variable {type : String} {d : Directive} {kind : MapKind} {order : KeyOrder κ} {key : Schema κ}
  {value : Schema β} {head : Head} {keyShape valueShape : Shape} {config : Config}
  {b t front : Bytes} {es : List (κ × β)} {pairs : List Bytes} {dict : Dict order β}

/-- If any value that ends by itself has an empty form then no value has another one. -/
theorem WireForm.eq_nil {schema : Schema α} {shape : Shape}
    (hresolve : schema.resolve d = .ok shape) (hgreedy : shape.isGreedy = false) {x y : α}
    (hx : schema.WireForm shape x []) (hy : schema.WireForm shape y b) : b = [] := by
  -- In front of these bytes the one value takes nothing, and the other one takes them all.
  have hnothing : schema.unmarshalWith d ⟨b.length⟩ ([] ++ b) = .ok (0, x) :=
    unmarshalWith_of_wireForm hresolve hx
      (WireForm.sizeWithin schema hresolve x [] hx (Nat.zero_le _)) (by simp [hgreedy])
  have hall : schema.unmarshalWith d ⟨b.length⟩ (b ++ []) = .ok (b.length, y) :=
    unmarshalWith_of_wireForm hresolve hy
      (WireForm.sizeWithin schema hresolve y b hy (Nat.le_refl _)) fun _ => rfl
  -- The inputs are the same, so both readings are.
  rw [List.append_nil] at hall
  have hlen := (Prod.ext_iff.mp (Except.ok.inj (hnothing.symm.trans hall))).1
  exact List.eq_nil_of_length_eq_zero hlen.symm

/-- If one pair takes up space then all do. -/
theorem EntryForm.ne_nil (hkey : key.resolve .default = .ok keyShape)
    (hkeyBounded : keyShape.isGreedy = false) (hvalue : value.resolve .default = .ok valueShape)
    (hvalueBounded : valueShape.isGreedy = false) {e e' : κ × β} {p q : Bytes}
    (hp : key.EntryForm value keyShape valueShape e p)
    (hq : TlsWire.WireForm.Solid (key.EntryForm value keyShape valueShape) e' q) : p ≠ [] := by
  obtain ⟨⟨hk', hv'⟩, hne⟩ := hq
  cases hp with
  | intro hk hv =>
    intro hnil
    -- An empty pair would have an empty key and an empty value, and then the other pair would as
    -- well.
    obtain ⟨rfl, rfl⟩ := List.append_eq_nil_iff.mp hnil
    rw [WireForm.eq_nil hkey hkeyBounded hk hk', WireForm.eq_nil hvalue hvalueBounded hv hv'] at hne
    exact hne rfl

/-- Where the pairs are those of the dictionary, in any order, the bytes are one of its forms. -/
theorem WireForm.of_cut
    (cut : Cut head (key.EntryForm value keyShape valueShape) b es front pairs)
    (hperm : es.Perm dict.entries) :
    (map type kind order key value).WireForm (.map keyShape valueShape head) dict b := by
  rw [WireForm]
  exact .intro hperm cut.framed

/-- Pairs that repeat a key are turned away, once they are all decoded. -/
theorem unmarshalWith_of_repeated
    (hresolve : (map type kind order key value).resolve d = .ok (.map keyShape valueShape head))
    (cut : Cut head (key.EntryForm value keyShape valueShape) b es front pairs)
    (hrepeated : ¬ (Dict.keys es).Nodup) (hend : head = .unbounded → t = [])
    (hample : (b ++ t).length ≤ config.maxCollect) :
    (map type kind order key value).unmarshalWith d config (b ++ t) =
      .error (.malformed [] .duplicateKey) := by
  obtain ⟨_, _, _, _, hkey, hkeyBounded, hvalue, hvalueBounded, heq⟩ := resolve_map.mp hresolve
  cases heq
  obtain rfl := cut.eq
  let ctx : Context := .top config
  obtain ⟨c, hadv, hrest⟩ :=
    Cursor.exists_advances (Cursor.rest_ofBytes (front ++ pairs.flatten ++ t))
  -- The head sets the content aside, and no more than the content, or all that is left.
  obtain ⟨seq, hhead, hcount, hbody⟩ := Sequence.exists_ofHead ctx cut.front_form hadv
    fun hunbounded => hrest.trans (hend hunbounded)
  -- No key, no value and no number of pairs is beyond the limit.
  have hlimit : (front ++ pairs.flatten).length ≤ config.maxCollect := by
    rw [List.length_append] at hample
    omega
  have hitems : es.length ≤ config.maxCollect ∧ ∀ e ∈ es,
      key.EachPart (SizeWithin config.maxCollect) e.1 ∧
        value.EachPart (SizeWithin config.maxCollect) e.2 :=
    cut.framed.forall_items hlimit fun e b h hlen =>
      h.both hlen (WireForm.sizeWithin key hkey) (WireForm.sizeWithin value hvalue)
  have hrun : Elements ctx (Decoder.entry (fun ctx => key.decode ctx keyShape)
      fun ctx => value.decode ctx valueShape) seq.count seq.scope es := by
    refine Elements.complete (Decoder.entry_complete (hkeyBounded ▸ key.decode_complete hkey)
      (hvalueBounded ▸ value.decode_complete hvalue)) cut.pieces hbody ?_ hitems.2
    rw [hcount, Nat.zero_add]
    exact hitems.1
  exact (unmarshalWith_error hresolve).mpr ⟨c, Decoder.ofMap_of_repeated hhead hrun hrepeated⟩

/-- The entries that an accepted map is cut up into are the ones that it has. -/
theorem perm_of_cut
    (hresolve : (map type kind order key value).resolve d = .ok (.map keyShape valueShape head))
    (cut : Cut head (key.EntryForm value keyShape valueShape) b es front pairs)
    (hform : (map type kind order key value).WireForm (.map keyShape valueShape head) dict b)
    (hend : head = .unbounded → t = [])
    (h : (map type kind order key value).unmarshalWith d config (b ++ t) = .ok (b.length, dict)) :
    es.Perm dict.entries := by
  -- The cut may not be the one that the decoder makes, but it makes a form of the same bytes.
  by_cases hnodup : (Dict.keys es).Nodup
  case pos =>
    have hperm : (Dict.ofEntries es : Dict order β).entries.Perm es :=
      Dict.entries_ofEntries_perm hnodup
    rw [WireForm.unique hresolve hform (WireForm.of_cut cut hperm.symm)]
    exact hperm.symm
  case neg =>
    -- Under an ample limit the map is accepted as well, and yet turned away.
    have hok : (map type kind order key value).unmarshalWith d ⟨(b ++ t).length⟩ (b ++ t) =
        .ok (b.length, dict) :=
      ((unmarshalWith_ok_iff_within hresolve (Nat.le_refl _)).mp h).1
    rw [unmarshalWith_of_repeated hresolve cut hnodup hend (Nat.le_refl _)] at hok
    cases hok

/-- The same pairs in another order are the same map. -/
theorem unmarshalWith_of_reordered
    (hresolve : (map type kind order key value).resolve d = .ok (.map keyShape valueShape head))
    (cut : Cut head (key.EntryForm value keyShape valueShape) b es front pairs)
    (hes : es.Perm dict.entries) (hend : head = .unbounded → t = [])
    (hwithin : (map type kind order key value).EachPart (SizeWithin config.maxCollect) dict)
    {pairs' : List Bytes} (hperm : pairs'.Perm pairs) :
    (map type kind order key value).unmarshalWith d config (front ++ pairs'.flatten ++ t) =
      .ok (b.length, dict) := by
  -- Moved pairs are a form of the same dictionary, and forms are read back.
  obtain ⟨hlen, es', hes', cut'⟩ := cut.reorder hperm
  rw [← hlen]
  refine unmarshalWith_of_wireForm hresolve (WireForm.of_cut cut' (hes'.trans hes)) hwithin
    fun hgreedy => hend ?_
  cases head with
  | unbounded => rfl
  | _ => cases hgreedy

/-- With another pair for one of the keys, wherever it is put, there is no map. -/
theorem unmarshalWith_of_extra_pair
    (hresolve : (map type kind order key value).resolve d = .ok (.map keyShape valueShape head))
    (cut : Cut head (key.EntryForm value keyShape valueShape) b es front pairs)
    (hend : head = .unbounded → t = []) {e : κ × β} {p : Bytes}
    (hp : key.EntryForm value keyShape valueShape e p)
    (hknown : e.1 ∈ Dict.keys es) {pairs' : List Bytes} {front' : Bytes}
    (hperm : pairs'.Perm (p :: pairs)) (hfront : head.Form pairs'.flatten.length front') :
    ∃ err, (map type kind order key value).unmarshalWith d config
        (front' ++ pairs'.flatten ++ t) = .error err ∧
      (err = .malformed [] .duplicateKey ∨ ∃ loc, err = .collectionTooLarge loc) := by
  obtain ⟨_, _, _, _, hkey, hkeyBounded, hvalue, hvalueBounded, heq⟩ := resolve_map.mp hresolve
  cases heq
  -- The pair takes up space, because the one that has the key does.
  obtain ⟨e', he', _⟩ := List.mem_map.mp hknown
  obtain ⟨q, hq, _⟩ := cut.pieces.exists_form he'
  have hne : p ≠ [] := EntryForm.ne_nil hkey hkeyBounded hvalue hvalueBounded hp hq
  obtain ⟨es', hes', cut'⟩ := Cut.exists_perm (.cons ⟨hp, hne⟩ cut.pair_forms) hperm hfront
  have hrepeated : ¬ (Dict.keys es').Nodup := by
    rw [(hes'.map Prod.fst).nodup_iff]
    exact fun hnodup => (List.nodup_cons.mp hnodup).1 hknown
  -- Under an ample limit the repeated key is what is met. A lower one can only be met before it.
  have hrun : (map type kind order key value).unmarshalWith d
      ⟨(front' ++ pairs'.flatten ++ t).length⟩ (front' ++ pairs'.flatten ++ t) =
        .error (.malformed [] .duplicateKey) :=
    unmarshalWith_of_repeated hresolve cut' hrepeated hend (Nat.le_refl _)
  rcases (unmarshalWith_error_limited hresolve (Nat.le_refl _) hrun config).2 with
    hsame | ⟨loc, hlarge⟩
  · exact ⟨_, hsame, .inl rfl⟩
  · exact ⟨_, hlarge, .inr ⟨loc, rfl⟩⟩

/-- What is said of the pairs of an accepted map, from the facts about cuts above. The form of the
map and its size are known because it has been accepted. -/
theorem pairsRead_of_unmarshalWith (hkeyFree : key.HookFree) (hvalueFree : value.HookFree)
    (hresolve : (map type kind order key value).resolve d = .ok (.map keyShape valueShape head))
    {data : Bytes} {n : Nat}
    (h : (map type kind order key value).unmarshalWith d config data = .ok (n, dict)) :
    PairsRead (fun data => (map type kind order key value).unmarshalWith d config data) head
      (key.EntryForm value keyShape valueShape) data n dict := by
  have hfree : (map type kind order key value).HookFree := ⟨hkeyFree, hvalueFree⟩
  obtain ⟨b, t, rfl, rfl, hform, hwithin⟩ := exists_wireForm_of_unmarshalWith hfree hresolve h
  have htake : (b ++ t).take b.length = b := List.take_left
  have hdrop : (b ++ t).drop b.length = t := List.drop_left
  -- Without a head the map takes everything, in any order.
  have hend : head = .unbounded → t = [] := by
    rintro rfl
    have hall := unmarshalWith_length_of_greedy hresolve rfl h id
    rw [List.length_append] at hall
    exact List.eq_nil_of_length_eq_zero (by omega)
  have hentries : ∀ es front pairs, Cut head (key.EntryForm value keyShape valueShape) b es front
      pairs → es.Perm dict.entries :=
    fun _ _ _ cut => perm_of_cut hresolve cut hform hend h
  constructor
  case exists_cut =>
    rw [htake]
    rw [WireForm] at hform
    cases hform with
    | intro _ hframed => exact ⟨_, Cut.exists_of_framed hframed⟩
  case entries =>
    rw [htake]
    exact hentries
  case reordered =>
    rw [htake, hdrop]
    exact fun es front pairs cut pairs' hperm =>
      unmarshalWith_of_reordered hresolve cut (hentries _ _ _ cut) hend hwithin hperm
  case repeated =>
    rw [htake, hdrop]
    intro es front pairs cut e p hp hknown pairs' front' hperm hfront
    have hes : e.1 ∈ Dict.keys es := (((hentries _ _ _ cut).map Prod.fst).mem_iff).mpr hknown
    exact unmarshalWith_of_extra_pair hresolve cut hend hp hes hperm hfront

end Pairs

/-! ## Maps -/

/-- Both kinds of map read the same from every input, but for the name that a directive error has
for the map itself. The pairs of an accepted map may stand in any order, and one more pair with a
key that is there already, in any form, is never accepted. -/
theorem unmarshalWith_maps_agree (key : Schema κ) (value : Schema β) (order order' : KeyOrder κ)
    (type type' : String) (d : Directive) (config : Config) (data : Bytes) :
    Alike (DecodeError.SameBut (DirectiveError.Renamed type type'))
      (fun r r' => r'.1 = r.1 ∧ r'.2.entries.Perm r.2.entries)
      ((map type .ordered order key value).unmarshalWith d config data)
      ((map type' .hashed order' key value).unmarshalWith d config data) ∧
    (key.HookFree → value.HookFree → ∀ kind n dict,
      (map type kind order key value).unmarshalWith d config data = .ok (n, dict) →
      ∃ head keyShape valueShape,
        (map type kind order key value).resolve d = .ok (.map keyShape valueShape head) ∧
        PairsRead (fun data => (map type kind order key value).unmarshalWith d config data) head
          (key.EntryForm value keyShape valueShape) data n dict) := by
  -- The second half takes the shape from the first reading, which could not have succeeded
  -- without.
  refine ⟨unmarshalWith_map_alike config data, fun hkeyFree hvalueFree kind n dict h => ?_⟩
  obtain ⟨shape, hresolve⟩ := resolve_of_unmarshalWith h
  obtain ⟨head, keyShape, valueShape, _, _, _, _, _, rfl⟩ := resolve_map.mp hresolve
  exact ⟨head, keyShape, valueShape, hresolve,
    pairsRead_of_unmarshalWith hkeyFree hvalueFree hresolve h⟩

/-- Two pairs whose keys do not ascend. They may change places, and no pair can be added that has
one of the keys as a longer varint. -/
theorem unmarshalWith_maps_agree_varint_keys :
    let key : Schema (BitVec 16 × Unit) :=
      .record "Key" (.cons ⟨"id", .varint, "u16"⟩ (.uint .u16) .nil) fun _ => .ok ()
    let ordered : Schema (Dict key.order (BitVec 8)) :=
      .map "BTreeMap<Key, u8>" .ordered key.order key (.uint .u8)
    let hashed : Schema (Dict key.order (BitVec 8)) :=
      .map "HashMap<Key, u8>" .hashed key.order key (.uint .u8)
    let dict : Dict key.order (BitVec 8) := .ofEntries [((9#16, ()), 1#8), ((5#16, ()), 2#8)]
    key.HookFree ∧ ordered.unmarshalWith (.head 1) {} [4, 9, 1, 5, 2] = .ok (5, dict) ∧
      (∃ dict', hashed.unmarshalWith (.head 1) {} [4, 9, 1, 5, 2] = .ok (5, dict') ∧
        dict'.entries.Perm dict.entries) ∧
      ordered.unmarshalWith (.head 1) {} [4, 5, 2, 9, 1] = .ok (5, dict) ∧
      ∃ err, ordered.unmarshalWith (.head 1) {} [7, 9, 1, 5, 2, 0x40, 5, 3] = .error err ∧
        (err = .malformed [] .duplicateKey ∨ ∃ loc, err = .collectionTooLarge loc) := by
  intro key ordered hashed dict
  let keyShape : Shape := .record (.present "id" .varint (.varint 16) .nil)
  let form : (BitVec 16 × Unit) × BitVec 8 → Bytes → Prop :=
    key.EntryForm (uint .u8) keyShape (.integer 8)
  have hfree : key.HookFree := ⟨trivial, trivial⟩
  have hresolve : ordered.resolve (.head 1) = .ok (.map keyShape (.integer 8) (.fixed 1)) := rfl
  -- A varint of either class is a form of the key, and the value is one byte.
  have hentry : ∀ (k : BitVec 16) (v : BitVec 8) (b : Bytes), Varint.Form k.toNat b →
      form ((k, ()), v) ((b ++ []) ++ bigEndian 1 v.toNat) :=
    fun k v b hb => .intro (.intro (.present (.varint hb) rfl)) .integer
  have hpair : form ((9#16, ()), 1#8) [9, 1] :=
    hentry 9#16 1#8 [9] (.ofClass 0 (by decide) (by decide))
  have hpair' : form ((5#16, ()), 2#8) [5, 2] :=
    hentry 5#16 2#8 [5] (.ofClass 0 (by decide) (by decide))
  have hextra : form ((5#16, ()), 3#8) [0x40, 5, 3] :=
    hentry 5#16 3#8 [0x40, 5] (.ofClass 1 (by decide) (by decide))
  -- The input as a head and two pairs, the larger key first.
  have cut : Cut (.fixed 1) form [4, 9, 1, 5, 2]
      [((9#16, ()), 1#8), ((5#16, ()), 2#8)] [4] [[9, 1], [5, 2]] :=
    ⟨rfl, .fixed (by decide), .cons ⟨hpair, nofun⟩ (.cons ⟨hpair', nofun⟩ .nil)⟩
  have hperm : [((9#16, ()), 1#8), ((5#16, ()), 2#8)].Perm dict.entries := .swap ..
  have hform : ordered.WireForm (.map keyShape (.integer 8) (.fixed 1)) dict [4, 9, 1, 5, 2] :=
    WireForm.of_cut cut hperm
  have hwithin := WireForm.sizeWithin ordered hresolve dict _ hform
    (by decide : _ ≤ ({} : Config).maxCollect)
  have hrun : ordered.unmarshalWith (.head 1) {} [4, 9, 1, 5, 2] = .ok (5, dict) :=
    unmarshalWith_of_wireForm (t := []) hresolve hform hwithin fun _ => rfl
  have hagree := unmarshalWith_maps_agree key (.uint .u8) key.order key.order
    "BTreeMap<Key, u8>" "HashMap<Key, u8>" (.head 1) {} [4, 9, 1, 5, 2]
  obtain ⟨hboth, hpairs⟩ := hagree
  obtain ⟨_, _, _, hresolve', hread⟩ := hpairs hfree trivial .ordered 5 dict hrun
  -- The shape that the theorem speaks of is the one that the pairs above are forms for.
  cases hresolve.symm.trans hresolve'
  refine ⟨hfree, hrun, ?_, hread.reordered _ _ _ cut [[5, 2], [9, 1]] (.swap ..), ?_⟩
  · rcases hboth.values_or_errors with ⟨r, ⟨n', dict'⟩, hr, hr', hn, hdict⟩ | ⟨_, _, he, _⟩
    · cases hrun.symm.trans hr
      cases hn
      exact ⟨dict', hr', hdict⟩
    · cases hrun.symm.trans he
  · exact hread.repeated _ _ _ cut _ [0x40, 5, 3] hextra (by decide)
      [[9, 1], [5, 2], [0x40, 5, 3]] [7] (by decide) (.fixed (by decide))

/-- A key may not be greedy, and the error that says so names the map. -/
theorem unmarshalWith_maps_name_themselves :
    let key : Schema (List (BitVec 8) × Unit) :=
      .record "Key" (.cons ⟨"v", .headNone, "Vec<u8>"⟩ (.vector "Vec<u8>" (.uint .u8)) .nil)
        fun _ => .ok ()
    let ordered : Schema (Dict key.order (BitVec 8)) :=
      .map "BTreeMap<Key, u8>" .ordered key.order key (.uint .u8)
    let hashed : Schema (Dict key.order (BitVec 8)) :=
      .map "HashMap<Key, u8>" .hashed key.order key (.uint .u8)
    ¬ ((∃ n dict dict', ordered.unmarshalWith (.head 1) {} [0] = .ok (n, dict) ∧
        hashed.unmarshalWith (.head 1) {} [0] = .ok (n, dict') ∧
        dict'.entries.Perm dict.entries) ∨
      ∃ e, ordered.unmarshalWith (.head 1) {} [0] = .error e ∧
        hashed.unmarshalWith (.head 1) {} [0] = .error e) := by
  intro key ordered hashed
  have hordered : ordered.unmarshalWith (.head 1) {} [0] =
      .error (.invalidDirective (.greedy "BTreeMap<Key, u8>")) := rfl
  have hhashed : hashed.unmarshalWith (.head 1) {} [0] =
      .error (.invalidDirective (.greedy "HashMap<Key, u8>")) := rfl
  -- Both fail, and with different errors.
  rw [hordered, hhashed]
  rintro (⟨_, _, _, hok, _⟩ | ⟨_, hsame, hsame'⟩)
  · cases hok
  · cases hsame
    rw [Except.error.injEq, DecodeError.invalidDirective.injEq, DirectiveError.greedy.injEq]
      at hsame'
    exact absurd hsame' (by decide)

end Schema

end TlsWire

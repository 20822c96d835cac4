import Mathlib.Data.List.Perm.Basic
import Subregister.Stored
import Subregister.Proofs.JsonWriting

namespace Subregister

open Json

theorem mapM_eq_some_iff {α β : Type} {f : α → Option β} {g : β → α} (h : ∀ x y, f x = some y ↔ x = g y)
    {xs : List α} {ys : List β} : xs.mapM f = some ys ↔ xs = ys.map g := by
  induction xs generalizing ys with
  | nil =>
    rw [List.mapM_nil, eq_comm (a := []), List.map_eq_nil_iff, eq_comm (a := ys)]
    exact Option.some_inj
  | cons x xs ih =>
    rw [List.mapM_cons]
    constructor
    · intro hm
      obtain ⟨y, hy, hm⟩ := Option.bind_eq_some_iff.mp hm
      obtain ⟨zs, hz, ⟨⟩⟩ := Option.bind_eq_some_iff.mp hm
      rw [List.map_cons, (h x y).mp hy, ih.mp hz]
    · intro hm
      cases ys with
      | nil => cases hm
      | cons y ys =>
        obtain ⟨rfl, rfl⟩ := List.cons.inj hm
        rw [(h _ y).mpr rfl, ih.mpr rfl]
        rfl

namespace Json

theorem Symbol.chars?_eq_some_iff {t : List Symbol} {cs : List Char} :
    chars? t = some cs ↔ t = cs.map scalar := by
  apply mapM_eq_some_iff
  rintro (c | u) d <;> simp [char?]

theorem write_pair (k l : String) (v w : Json) :
    (record [(k, v), (l, w)]).write = '\x7b' :: (Symbol.quote (Symbol.ofString k) ++ ':' :: (v.write ++ ',' ::
      (Symbol.quote (Symbol.ofString l) ++ ':' :: (w.write ++ ['\x7d'])))) :=
  rfl

theorem legible_pair {k l : String} {v w : Json} (hv : v.Legible) (hw : w.Legible) :
    (record [(k, v), (l, w)]).Legible :=
  legible_record (List.forall_mem_cons.mpr ⟨hv, List.forall_mem_singleton.mpr hw⟩)

end Json

theorem Tagged.ofTag?_eq_some_iff {α : Type} [Tagged α] {s : String} {a : α} :
    ofTag? s = some a ↔ s = tag a := by
  constructor
  · intro h
    have found : (tag a == s) = true := List.find?_some (p := fun b => tag b == s) h
    exact (eq_of_beq found).symm
  · rintro rfl
    exact ofTag?_tag a

namespace Stored

inductive Names (name : String) : Json → Prop
  | alone : Names name (.ofString name)
  | keyed : Names name (.record [(name, .null)])

/-- The values of two fields: in their order, or by their names, among members of any other names. -/
inductive Pairs (first second : String) (a b : Json) : Json → Prop
  | ordered : Pairs first second a b (.array [a, b])
  | named {members others : List (String × Json)} :
      members.Perm ((first, a) :: (second, b) :: others) → (∀ m ∈ others, m.1 ≠ first ∧ m.1 ≠ second) →
      Pairs first second a b (.record members)

theorem text?_eq_some_iff {t : List Symbol} {s : String} :
    (Symbol.chars? t).map String.ofList = some s ↔ t = Symbol.ofString s := by
  rw [Option.map_eq_some_iff]
  constructor
  · rintro ⟨cs, hc, rfl⟩
    rw [Symbol.chars?_eq_some_iff.mp hc, Symbol.ofString, String.toList_ofList]
  · rintro rfl
    exact ⟨s.toList, Symbol.chars?_map_scalar _, String.ofList_toList⟩

theorem tag?_eq_some_iff {v : Json} {s : String} : tag? v = some s ↔ Names s v := by
  constructor
  · intro h
    unfold tag? at h
    split at h
    · rw [text?_eq_some_iff.mp h]
      exact .alone
    · rw [text?_eq_some_iff.mp h]
      exact .keyed
    · cases h
  · intro h
    cases h <;> exact text?_eq_some_iff.mpr rfl

theorem ofJson?_tagged_iff {α : Type} [Tagged α] {v : Json} {a : α} :
    ofJson? v = some a ↔ Names (Tagged.tag a) v := by
  have found : ofJson? v = some a ↔ ∃ s, tag? v = some s ∧ Tagged.ofTag? s = some a := Option.bind_eq_some_iff
  simp only [found, Tagged.ofTag?_eq_some_iff, tag?_eq_some_iff, exists_eq_right]

theorem name?_eq_some_iff {m : List Symbol × Json} {n : String × Json} :
    name? m = some n ↔ m = (Symbol.ofString n.1, n.2) := by
  constructor
  · intro h
    obtain ⟨cs, hc, ⟨⟩⟩ := Option.bind_eq_some_iff.mp h
    rw [Symbol.ofString, String.toList_ofList, ← Symbol.chars?_eq_some_iff.mp hc]
  · rintro rfl
    rw [name?, Symbol.ofString, Symbol.chars?_map_scalar, Option.bind_eq_bind, Option.bind_some, String.ofList_toList]
    rfl

theorem mapM_name?_eq_some_iff {members : List (List Symbol × Json)} {ms : List (String × Json)} :
    members.mapM name? = some ms ↔ .object members = Json.record ms := by
  rw [mapM_eq_some_iff fun _ _ => name?_eq_some_iff, record, object.injEq]

theorem member?_eq_some_iff {name : String} {ms : List (String × Json)} {x : Json} :
    member? name ms = some x ↔ ms.filter (fun m => m.1 == name) = [(name, x)] := by
  rw [member?]
  constructor
  · intro h
    split at h
    · next m hm =>
      obtain rfl := Option.some.inj h
      have named : m ∈ ms.filter (fun m => m.1 == name) := hm ▸ List.mem_singleton_self m
      rw [hm, ← eq_of_beq (List.mem_filter.mp named).2]
    · cases h
  · intro h
    rw [h]

section

variable {first second : String} {a b v : Json}

theorem fields?_eq_some_of_pairs (hne : first ≠ second) (h : Pairs first second a b v) :
    fields? first second v = some (a, b) := by
  cases h with
  | ordered => rfl
  | @named members others perm apart =>
    have found {name : String} {x : Json} (hx : ((first, a) :: (second, b) :: others).filter (fun m => m.1 == name) =
        [(name, x)]) : member? name members = some x := by
      refine member?_eq_some_iff.mpr (List.perm_singleton.mp ?_)
      exact hx ▸ perm.filter _
    have rest (name : String) (hn : name = first ∨ name = second) : others.filter (fun m => m.1 == name) = [] := by
      refine List.filter_eq_nil_iff.mpr fun m hm => ?_
      rw [beq_iff_eq]
      rcases hn with rfl | rfl
      · exact (apart m hm).1
      · exact (apart m hm).2
    have ha : member? first members = some a := found (by simp [hne.symm, rest first (.inl rfl)])
    have hb : member? second members = some b := found (by simp [hne, rest second (.inr rfl)])
    change (List.mapM name? _).bind _ = _
    rw [mapM_name?_eq_some_iff.mpr rfl, Option.bind_some, ha, hb]
    rfl

theorem pairs_of_fields? (hne : first ≠ second) (h : fields? first second v = some (a, b)) :
    Pairs first second a b v := by
  unfold fields? at h
  split at h
  · cases h
    exact .ordered
  · next members =>
    obtain ⟨ms, hms, h⟩ := Option.bind_eq_some_iff.mp h
    obtain ⟨x, hx, h⟩ := Option.bind_eq_some_iff.mp h
    obtain ⟨y, hy, ⟨⟩⟩ := Option.bind_eq_some_iff.mp h
    rw [mapM_name?_eq_some_iff.mp hms]
    have hx := member?_eq_some_iff.mp hx
    have hy := member?_eq_some_iff.mp hy
    have later : (ms.filter fun m => !(m.1 == first)).filter (fun m => m.1 == second) = [(second, b)] := by
      rw [List.filter_filter, ← hy]
      refine List.filter_congr fun m _ => ?_
      by_cases hm : m.1 = second
      · simp [hm, hne.symm]
      · simp [hm]
    have outer := (List.filter_append_perm (fun m => m.1 == first) ms).symm
    have inner := (List.filter_append_perm (fun m => m.1 == second) (ms.filter fun m => !(m.1 == first))).symm
    rw [hx] at outer
    rw [later] at inner
    refine .named (outer.trans (inner.cons _)) fun m hm => ?_
    obtain ⟨hm, notSecond⟩ := List.mem_filter.mp hm
    obtain ⟨-, notFirst⟩ := List.mem_filter.mp hm
    exact ⟨by simpa using notFirst, by simpa using notSecond⟩
  · cases h

theorem fields?_eq_some_iff (hne : first ≠ second) :
    fields? first second v = some (a, b) ↔ Pairs first second a b v :=
  ⟨pairs_of_fields? hne, fields?_eq_some_of_pairs hne⟩

end

theorem pair?_eq_some_iff {α β : Type} [Stored α] [Stored β] {first second : String} (hne : first ≠ second) {v : Json}
    {x : α} {y : β} :
    pair? first second v = some (x, y) ↔
      ∃ a b, Pairs first second a b v ∧ ofJson? a = some x ∧ ofJson? b = some y := by
  constructor
  · intro h
    obtain ⟨⟨a, b⟩, fields, h⟩ := Option.bind_eq_some_iff.mp h
    obtain ⟨x, hx, h⟩ := Option.bind_eq_some_iff.mp h
    obtain ⟨y, hy, ⟨⟩⟩ := Option.bind_eq_some_iff.mp h
    exact ⟨a, b, (fields?_eq_some_iff hne).mp fields, hx, hy⟩
  · rintro ⟨a, b, pairs, hx, hy⟩
    simp only [pair?, (fields?_eq_some_iff hne).mpr pairs, Option.bind_eq_bind, Option.bind_some, hx, hy]
    rfl

end Stored

open Stored

inductive Designator.ShownBy (d : Designator) : Json → Prop
  | mk {a b v : Json} :
      Pairs "first" "second" a b v → Names (Tagged.tag d.first) a → Names (Tagged.tag d.second) b → ShownBy d v

inductive Evaluator.ShownBy (e : Evaluator) : Json → Prop
  | mk {a b v : Json} :
      Pairs "shift_count" "default_size" a b v → Names (Tagged.tag e.policy) a → e.standard.ShownBy b → ShownBy e v

theorem Designator.ofJson?_eq_some_iff {d : Designator} {v : Json} : ofJson? v = some d ↔ d.ShownBy v := by
  have read : ofJson? v = some d ↔ pair? "first" "second" v = some (d.first, d.second) := by
    refine Option.map_eq_some_iff.trans ⟨?_, fun h => ⟨_, h, rfl⟩⟩
    rintro ⟨fields, h, rfl⟩
    exact h
  rw [read, pair?_eq_some_iff (by decide)]
  constructor
  · rintro ⟨a, b, pairs, ha, hb⟩
    exact ⟨pairs, ofJson?_tagged_iff.mp ha, ofJson?_tagged_iff.mp hb⟩
  · rintro ⟨pairs, ha, hb⟩
    exact ⟨_, _, pairs, ofJson?_tagged_iff.mpr ha, ofJson?_tagged_iff.mpr hb⟩

theorem Evaluator.ofJson?_eq_some_iff {e : Evaluator} {v : Json} : ofJson? v = some e ↔ e.ShownBy v := by
  have read : ofJson? v = some e ↔ pair? "shift_count" "default_size" v = some (e.policy, e.standard) := by
    refine Option.map_eq_some_iff.trans ⟨?_, fun h => ⟨_, h, rfl⟩⟩
    rintro ⟨fields, h, rfl⟩
    exact h
  rw [read, pair?_eq_some_iff (by decide)]
  constructor
  · rintro ⟨a, b, pairs, ha, hb⟩
    exact ⟨pairs, ofJson?_tagged_iff.mp ha, Designator.ofJson?_eq_some_iff.mp hb⟩
  · rintro ⟨pairs, ha, hb⟩
    exact ⟨_, _, pairs, ofJson?_tagged_iff.mpr ha, Designator.ofJson?_eq_some_iff.mpr hb⟩

theorem Stored.load?_eq_some_iff {α : Type} [Stored α] {s : String} {a : α} :
    load? s = some a ↔ ∃ v, Spells s v ∧ ofJson? v = some a := by
  rw [load?, Option.bind_eq_some_iff]
  simp only [parse?_eq_some_iff]

namespace Stored

inductive Misfit (first second : String) : Json → Prop
  | length {items : List Json} : items.length ≠ 2 → Misfit first second (.array items)
  | count {members : List (List Symbol × Json)} {name : String} : name ∈ [first, second] →
      (members.map Prod.fst).count (Symbol.ofString name) ≠ 1 → Misfit first second (.object members)

theorem not_pairs_of_misfit {first second : String} {v : Json} (hne : first ≠ second)
    (h : Misfit first second v) (a b : Json) : ¬ Pairs first second a b v := by
  intro pairs
  cases h with
  | length hl =>
    cases pairs
    exact hl rfl
  | @count members name hn hc =>
    cases pairs with
    | @named ms others perm apart =>
    have names : (ms.map fun m => (Symbol.ofString m.1, m.2)).map Prod.fst = (ms.map Prod.fst).map Symbol.ofString := by
      rw [List.map_map, List.map_map]
      rfl
    have absent (hx : name = first ∨ name = second) : name ∉ others.map Prod.fst := by
      intro hm
      obtain ⟨m, other, rfl⟩ := List.mem_map.mp hm
      rcases hx with hx | hx
      · exact (apart m other).1 hx
      · exact (apart m other).2 hx
    have once : (ms.map Prod.fst).count name = 1 := by
      rw [(perm.map Prod.fst).count_eq]
      rcases List.mem_pair.mp hn with rfl | rfl
      · simp [List.count_eq_zero_of_not_mem (absent (.inl rfl)), hne.symm]
      · simp [List.count_eq_zero_of_not_mem (absent (.inr rfl)), hne]
    rw [names, List.count_map_of_injective _ _ (fun _ _ => Symbol.ofString_injective), once] at hc
    exact hc rfl

end Stored

namespace Evaluator

inductive Misfit : Json → Prop
  | outer {v : Json} : Stored.Misfit "shift_count" "default_size" v → Misfit v
  | item {a b : Json} : Stored.Misfit "first" "second" b → Misfit (.array [a, b])
  | member {members : List (List Symbol × Json)} {b : Json} : (Symbol.ofString "default_size", b) ∈ members →
      Stored.Misfit "first" "second" b → Misfit (.object members)

theorem not_shownBy_of_misfit {v : Json} (h : Misfit v) (e : Evaluator) : ¬ e.ShownBy v := by
  rintro ⟨pairs, -, ⟨inner, -, -⟩⟩
  cases h with
  | outer h => exact not_pairs_of_misfit (by decide) h _ _ pairs
  | item h =>
    cases pairs
    exact not_pairs_of_misfit (by decide) h _ _ inner
  | @member members x hm h =>
    cases pairs with
    | @named ms others perm apart =>
    obtain ⟨m, known, hx⟩ := List.mem_map.mp hm
    obtain ⟨name, rfl⟩ := Prod.mk.inj hx
    have name : m.1 = "default_size" := Symbol.ofString_injective name
    rcases List.mem_cons.mp (perm.mem_iff.mp known) with rfl | later
    · exact absurd (name : "shift_count" = "default_size") (by simp)
    · rcases List.mem_cons.mp later with rfl | other
      · exact not_pairs_of_misfit (by decide) h _ _ inner
      · exact (apart m other).2 name

def canonical (e : Evaluator) : String :=
  "\x7b\"shift_count\":\"" ++ Tagged.tag e.policy ++ "\",\"default_size\":\x7b\"first\":\"" ++
    Tagged.tag e.standard.first ++ "\",\"second\":\"" ++ Tagged.tag e.standard.second ++ "\"\x7d\x7d"

theorem save_eq_canonical (e : Evaluator) : save e = e.canonical := by
  have policy : (toJson e.policy).write = '"' :: ((Tagged.tag e.policy).toList ++ ['"']) := by
    cases e.policy <;> rfl
  have slot (s : Slot) : (toJson s).write = '"' :: ((Tagged.tag s).toList ++ ['"']) := by
    cases s <;> rfl
  have names : ∀ name ∈ ["shift_count", "default_size", "first", "second"],
      Symbol.quote (Symbol.ofString name) = '"' :: (name.toList ++ ['"']) := by
    decide +kernel
  have size : (toJson e.standard).write = _ :=
    write_pair "first" "second" (toJson e.standard.first) (toJson e.standard.second)
  have whole : (toJson e).write = _ := write_pair "shift_count" "default_size" (toJson e.policy) (toJson e.standard)
  rw [names "first" (by simp), names "second" (by simp), slot, slot] at size
  rw [names "shift_count" (by simp), names "default_size" (by simp), policy, size] at whole
  apply String.toList_inj.mp
  rw [save, text, String.toList_ofList, whole]
  unfold canonical
  simp

theorem shownBy_toJson (e : Evaluator) : e.ShownBy (toJson e) := by
  have pairs (first second : String) (a b : Json) : Pairs first second a b (.record [(first, a), (second, b)]) :=
    .named (.refl _) nofun
  exact ⟨pairs _ _ _ _, .alone, ⟨pairs _ _ _ _, .alone, .alone⟩⟩

theorem legible_toJson (e : Evaluator) : (toJson e).Legible := by
  have size : (toJson e.standard).Legible := legible_pair (legible_ofString _) (legible_ofString _)
  exact legible_pair (legible_ofString _) size

theorem load?_save (e : Evaluator) : load? (save e) = some e :=
  load?_eq_some_iff.mpr ⟨toJson e, e.legible_toJson.spells, ofJson?_eq_some_iff.mpr e.shownBy_toJson⟩

theorem saved_evaluators_read_back :
    (∀ (s : String) (e : Evaluator), load? s = some e ↔ ∃ v, Spells s v ∧ e.ShownBy v) ∧
    (∀ e : Evaluator, save e = e.canonical ∧ load? e.canonical = some e) ∧
    ∀ (s : String) (v : Json), Spells s v → Misfit v → (load? s : Option Evaluator) = none := by
  refine ⟨fun s e => ?_, fun e => ?_, fun s v spells misfit => ?_⟩
  · simp only [load?_eq_some_iff, ofJson?_eq_some_iff]
  · exact ⟨e.save_eq_canonical, e.save_eq_canonical ▸ e.load?_save⟩
  · refine Option.eq_none_iff_forall_ne_some.mpr fun e h => ?_
    obtain ⟨w, spells', shown⟩ := load?_eq_some_iff.mp h
    obtain rfl := spells.unique spells'
    exact not_shownBy_of_misfit misfit e (ofJson?_eq_some_iff.mp shown)

theorem saved_evaluators_read_back_repeated_field :
    let size := Json.record [("first", .ofString "Low"), ("first", .ofString "High")]
    let v := Json.record [("default_size", size), ("shift_count", .ofString "Modulo")]
    let s := "\x7b\"default_size\":\x7b\"first\":\"Low\",\"first\":\"High\"\x7d,\"shift_count\":\"Modulo\"\x7d"
    Spells s v ∧ Misfit v ∧ (load? s : Option Evaluator) = none := by
  intro size v s
  have legible : v.Legible := legible_pair (legible_pair (legible_ofString _) (legible_ofString _)) (legible_ofString _)
  have written : v.text = s := by decide +kernel
  have spells : Spells s v := written ▸ legible.spells
  have misfit : Misfit v := .member List.mem_cons_self (.count List.mem_cons_self (by decide))
  exact ⟨spells, misfit, saved_evaluators_read_back.2.2 s v spells misfit⟩

example : load? "[\x7b\"Modulo\":null\x7d , \x7b\"x\":[1,\x7b\x7d],\"second\":\"Low\",\"f\\u0069rst\":\"High\"\x7d]\n" =
    some (⟨.modulo, ⟨.high, .low⟩⟩ : Evaluator) := by
  decide +kernel

end Evaluator

end Subregister

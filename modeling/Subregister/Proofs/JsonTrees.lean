import Subregister.Json.Reading
import Subregister.Proofs.JsonRecognition

/-!
The tokens of a value, and the one value that a text spells: the value read from a text is the value whose tokens the
text lays out.
-/

namespace Subregister.Json

mutual

def tokens : Json → List Token
  | null => [.leaf null]
  | bool b => [.leaf (bool b)]
  | number spelling => [.leaf (number spelling)]
  | string t => [.text t]
  | array [] => [.openArray, .closeArray]
  | array (x :: xs) => .openArray :: (tokens x ++ itemTokens xs)
  | object [] => [.openObject, .closeObject]
  | object ((k, x) :: ms) => .openObject :: .text k :: .colon :: (tokens x ++ memberTokens ms)

def itemTokens : List Json → List Token
  | [] => [.closeArray]
  | x :: xs => .comma :: (tokens x ++ itemTokens xs)

def memberTokens : List (List Symbol × Json) → List Token
  | [] => [.closeObject]
  | (k, x) :: ms => .comma :: .text k :: .colon :: (tokens x ++ memberTokens ms)

end

/-- The value of a text: blanks and the choice of escapes do not show in it. -/
def Spells (s : String) (v : Json) : Prop :=
  Laid v.tokens s.toList

section

variable {t : Token} {ts : List Token}

theorem sparse_cons (ht : ¬ t.IsLeaf) (h : Sparse ts) : Sparse (t :: ts) :=
  List.isChain_cons.mpr ⟨fun _ _ leaves => ht leaves.1, h⟩

theorem sparse_leaf (v : Json) (h : Sparse ts) (ht : ∀ t ∈ ts.head?, ¬ t.IsLeaf) : Sparse (.leaf v :: ts) :=
  List.isChain_cons.mpr ⟨fun t hm leaves => ht t hm leaves.2, h⟩

end

theorem head?_itemTokens (xs : List Json) (ts : List Token) : ∀ t ∈ (itemTokens xs ++ ts).head?, ¬ t.IsLeaf := by
  intro t ht
  cases xs <;> cases ht <;> exact id

theorem head?_memberTokens (ms : List (List Symbol × Json)) (ts : List Token) :
    ∀ t ∈ (memberTokens ms ++ ts).head?, ¬ t.IsLeaf := by
  intro t ht
  rcases ms with - | ⟨⟨k, x⟩, ms⟩ <;> cases ht <;> exact id

mutual

theorem sparse_tokens (v : Json) {ts : List Token} (h : Sparse ts) (ht : ∀ t ∈ ts.head?, ¬ t.IsLeaf) :
    Sparse (v.tokens ++ ts) := by
  match v with
  | null | bool _ | number _ => exact sparse_leaf _ h ht
  | string t => exact sparse_cons id h
  | array [] => exact sparse_cons id (sparse_cons id h)
  | array (x :: xs) => exact sparse_cons id (sparse_itemTokens (x :: xs) h).tail
  | object [] => exact sparse_cons id (sparse_cons id h)
  | object ((k, x) :: ms) => exact sparse_cons id (sparse_memberTokens ((k, x) :: ms) h).tail

theorem sparse_itemTokens (xs : List Json) {ts : List Token} (h : Sparse ts) : Sparse (itemTokens xs ++ ts) := by
  match xs with
  | [] => exact sparse_cons id h
  | x :: xs =>
    have items := sparse_tokens x (sparse_itemTokens xs h) (head?_itemTokens xs ts)
    rw [← List.append_assoc] at items
    exact sparse_cons id items

theorem sparse_memberTokens (ms : List (List Symbol × Json)) {ts : List Token} (h : Sparse ts) :
    Sparse (memberTokens ms ++ ts) := by
  match ms with
  | [] => exact sparse_cons id h
  | (k, x) :: ms =>
    have members := sparse_tokens x (sparse_memberTokens ms h) (head?_memberTokens ms ts)
    rw [← List.append_assoc] at members
    exact sparse_cons id (sparse_cons id (sparse_cons id members))

end

namespace Assembly

theorem firstItem_run (x : Json) (stack : List Frame) (ts : List Token) :
    (firstItem stack).run (x.tokens ++ ts) = (value (.array [] :: stack)).run (x.tokens ++ ts) := by
  match x with
  | null | bool _ | number _ | string _ | array [] | array (_ :: _) | object [] | object (_ :: _) => rfl

-- By induction on the tree, with an array or an object behind its first value in two more cases: what has been
-- assembled of it waits in the top frame.
mutual

theorem run_tokens (v : Json) (stack : List Frame) (ts : List Token) :
    (value stack).run (v.tokens ++ ts) = (done v stack).run ts := by
  match v with
  | null | bool _ | number _ | string _ | array [] | object [] => rfl
  | array (x :: xs) =>
    calc (firstItem stack).run (x.tokens ++ itemTokens xs ++ ts)
      _ = (value (.array [] :: stack)).run (x.tokens ++ (itemTokens xs ++ ts)) := by
        rw [List.append_assoc, firstItem_run]
      _ = (done x (.array [] :: stack)).run (itemTokens xs ++ ts) := run_tokens x _ _
      _ = (done (array (x :: xs)) stack).run ts := run_itemTokens xs x [] stack ts
  | object ((k, x) :: ms) =>
    calc (value (.object [] k :: stack)).run (x.tokens ++ memberTokens ms ++ ts)
      _ = (done x (.object [] k :: stack)).run (memberTokens ms ++ ts) := by rw [List.append_assoc, run_tokens x]
      _ = (done (object ((k, x) :: ms)) stack).run ts := run_memberTokens ms k x [] stack ts

theorem run_itemTokens (xs : List Json) (v : Json) (items : List Json) (stack : List Frame) (ts : List Token) :
    (done v (.array items :: stack)).run (itemTokens xs ++ ts) =
      (done (array (items.reverse ++ v :: xs)) stack).run ts := by
  match xs with
  | [] =>
    rw [← List.reverse_cons]
    rfl
  | x :: xs =>
    calc (value (.array (v :: items) :: stack)).run (x.tokens ++ itemTokens xs ++ ts)
      _ = (done x (.array (v :: items) :: stack)).run (itemTokens xs ++ ts) := by rw [List.append_assoc, run_tokens x]
      _ = (done (array ((v :: items).reverse ++ x :: xs)) stack).run ts := run_itemTokens xs x _ stack ts
      _ = (done (array (items.reverse ++ v :: x :: xs)) stack).run ts := by
        rw [List.reverse_cons, List.append_assoc, List.singleton_append]

theorem run_memberTokens (ms : List (List Symbol × Json)) (k : List Symbol) (v : Json)
    (members : List (List Symbol × Json)) (stack : List Frame) (ts : List Token) :
    (done v (.object members k :: stack)).run (memberTokens ms ++ ts) =
      (done (object (members.reverse ++ (k, v) :: ms)) stack).run ts := by
  match ms with
  | [] =>
    rw [← List.reverse_cons]
    rfl
  | (l, x) :: ms =>
    calc (value (.object ((k, v) :: members) l :: stack)).run (x.tokens ++ memberTokens ms ++ ts)
      _ = (done x (.object ((k, v) :: members) l :: stack)).run (memberTokens ms ++ ts) := by
        rw [List.append_assoc, run_tokens x]
      _ = (done (object (((k, v) :: members).reverse ++ (l, x) :: ms)) stack).run ts :=
        run_memberTokens ms l x _ stack ts
      _ = (done (object (members.reverse ++ (k, v) :: (l, x) :: ms)) stack).run ts := by
        rw [List.reverse_cons, List.append_assoc, List.singleton_append]

end

end Assembly

def Atomic (t : Token) : Prop :=
  ∀ v, t = .leaf v → v.tokens = [t]

theorem atomic_of_lexeme {t : Token} {cs : List Char} (h : Lexeme t cs) : Atomic t := by
  rintro v rfl
  cases h with
  | null | true | false | number => rfl

def earlierItems (items : List Json) : List Token :=
  items.flatMap fun x => x.tokens ++ [.comma]

def earlierMembers (members : List (List Symbol × Json)) : List Token :=
  members.flatMap fun m => .text m.1 :: .colon :: (m.2.tokens ++ [.comma])

namespace Frame

def tokens : Frame → List Token
  | array items => .openArray :: earlierItems items.reverse
  | object members name => .openObject :: (earlierMembers members.reverse ++ [.text name, .colon])

end Frame

def stackTokens (stack : List Frame) : List Token :=
  stack.reverse.flatMap Frame.tokens

theorem stackTokens_cons (frame : Frame) (stack : List Frame) :
    stackTokens (frame :: stack) = stackTokens stack ++ frame.tokens := by
  rw [stackTokens, List.reverse_cons, List.flatMap_append, List.flatMap_singleton, stackTokens]

def Assembly.tokens : Assembly → List Token
  | value stack => stackTokens stack
  | firstItem stack => stackTokens stack ++ [.openArray]
  | firstName stack => stackTokens stack ++ [.openObject]
  | name members stack => stackTokens stack ++ .openObject :: earlierMembers members.reverse
  | colon members n stack => stackTokens stack ++ .openObject :: (earlierMembers members.reverse ++ [.text n])
  | done v stack => stackTokens stack ++ v.tokens

theorem tokens_array (xs : List Json) (v : Json) :
    (array (xs ++ [v])).tokens = .openArray :: (earlierItems xs ++ v.tokens ++ [.closeArray]) := by
  have items (xs : List Json) (w : Json) :
      w.tokens ++ itemTokens (xs ++ [v]) = earlierItems (w :: xs) ++ v.tokens ++ [.closeArray] := by
    induction xs generalizing w with
    | nil => simp [itemTokens, earlierItems]
    | cons x xs ih =>
      rw [List.cons_append, itemTokens, ih]
      simp [earlierItems]
  cases xs with
  | nil => simp [Json.tokens, itemTokens, earlierItems]
  | cons x xs => exact congrArg _ (items xs x)

theorem tokens_object (ms : List (List Symbol × Json)) (k : List Symbol) (v : Json) :
    (object (ms ++ [(k, v)])).tokens =
      .openObject :: (earlierMembers ms ++ .text k :: .colon :: v.tokens ++ [.closeObject]) := by
  have members (ms : List (List Symbol × Json)) (l : List Symbol) (w : Json) :
      .text l :: .colon :: (w.tokens ++ memberTokens (ms ++ [(k, v)])) =
        earlierMembers ((l, w) :: ms) ++ .text k :: .colon :: v.tokens ++ [.closeObject] := by
    induction ms generalizing l w with
    | nil => simp [memberTokens, earlierMembers]
    | cons m ms ih =>
      rw [List.cons_append, memberTokens, ih]
      simp [earlierMembers]
  cases ms with
  | nil => simp [Json.tokens, memberTokens, earlierMembers]
  | cons m ms => exact congrArg _ (members ms m.1 m.2)

namespace Assembly

theorem open?_tokens {stack : List Frame} {t : Token} {a : Assembly} (ht : Atomic t) (h : open? stack t = some a) :
    a.tokens = stackTokens stack ++ [t] := by
  cases t with
  | leaf v =>
    cases h
    rw [tokens, ht v rfl]
  | text t | openArray | openObject =>
    cases h
    rfl
  | closeArray | closeObject | comma | colon => cases h

theorem step_tokens {a a' : Assembly} {t : Token} (ht : Atomic t) (h : a.step t = some a') :
    a'.tokens = a.tokens ++ [t] := by
  cases a with
  | value stack => exact open?_tokens ht h
  | firstItem stack =>
    by_cases close : t = .closeArray
    · subst close
      cases h
      simp [tokens, Json.tokens]
    · have opened : open? (.array [] :: stack) t = some a' := by
        cases t <;> first | exact h | exact absurd rfl close
      rw [open?_tokens ht opened, stackTokens_cons]
      rfl
  | firstName stack =>
    cases t <;> cases h <;> simp [tokens, Json.tokens, earlierMembers]
  | name members stack =>
    cases t <;> cases h
    simp [tokens]
  | colon members n stack =>
    cases t <;> cases h
    simp [tokens, stackTokens_cons, Frame.tokens]
  | done v stack =>
    rcases stack with - | ⟨frame, stack⟩
    · cases t <;> cases h
    · cases frame with
      | array items =>
        cases t <;> cases h
        · simp [tokens, stackTokens_cons, Frame.tokens, tokens_array]
        · simp [tokens, stackTokens_cons, Frame.tokens, earlierItems]
      | object members n =>
        cases t <;> cases h
        · simp [tokens, stackTokens_cons, Frame.tokens, tokens_object]
        · simp [tokens, stackTokens_cons, Frame.tokens, earlierMembers]

theorem run_eq_some {a : Assembly} {ts : List Token} {v : Json} (ht : ∀ t ∈ ts, Atomic t) (h : a.run ts = some v) :
    v.tokens = a.tokens ++ ts := by
  induction ts generalizing a with
  | nil =>
    rw [List.append_nil]
    cases a with
    | done w stack =>
      cases stack with
      | nil =>
        cases h
        rfl
      | cons frame stack => cases h
    | value | firstItem | firstName | name | colon => cases h
  | cons t ts ih =>
    obtain ⟨a', hs, h⟩ := Option.bind_eq_some_iff.mp h
    rw [ih (fun u hu => ht u (List.mem_cons_of_mem t hu)) h, step_tokens (ht t List.mem_cons_self) hs,
      List.append_assoc, List.singleton_append]

end Assembly

theorem ofTokens?_tokens (v : Json) : ofTokens? v.tokens = some v := by
  have run := Assembly.run_tokens v [] []
  rwa [List.append_nil] at run

theorem tokens_of_ofTokens? {ts : List Token} {v : Json} (ht : ∀ t ∈ ts, Atomic t) (h : ofTokens? ts = some v) :
    ts = v.tokens :=
  (Assembly.run_eq_some ht h).symm

theorem atomic_of_laid {ts : List Token} {cs : List Char} (h : Laid ts cs) : ∀ t ∈ ts, Atomic t := by
  induction h with
  | last _ => exact nofun
  | next _ hl _ ih => exact List.forall_mem_cons.mpr ⟨atomic_of_lexeme hl, ih⟩

theorem sparse_of_tokens (v : Json) : Sparse v.tokens := by
  have sparse : Sparse (v.tokens ++ []) := sparse_tokens v .nil nofun
  rwa [List.append_nil] at sparse

theorem parse?_eq_some_iff {s : String} {v : Json} : parse? s = some v ↔ Spells s v := by
  constructor
  · intro h
    obtain ⟨ts, scanned, built⟩ := Option.bind_eq_some_iff.mp h
    have laid : Laid ts s.toList := laid_of_tokens? scanned
    rwa [tokens_of_ofTokens? (atomic_of_laid laid) built] at laid
  · intro h
    rw [parse?, tokens?_of_laid h (sparse_of_tokens v)]
    exact ofTokens?_tokens v

theorem Spells.unique {s : String} {v w : Json} (hv : Spells s v) (hw : Spells s w) : v = w :=
  Option.some.inj ((parse?_eq_some_iff.mpr hv).symm.trans (parse?_eq_some_iff.mpr hw))

end Subregister.Json

import BitBay.Library.Wire
import Mathlib.Data.Set.Basic

/-!
# Decoding into an object

A decoder takes values from the front of the bytes and assigns the members of an object as it
goes. One that fails leaves the members that it has assigned by then, so the object remembers
for every member which decoder assigned it last.

`Within` says which members a decoder may assign, and whether it may do what has no meaning. It
has a rule for each way to put decoders together, and so has `Keeps`, for a view of the object
that a decoder leaves as it is.
-/
namespace BitBay.Decode

open Wire

variable {Obj Member Tag α β : Type}

/-- A decoder refuses the bytes, or does what has no meaning. -/
inductive Failure
  | refused
  | undefined
  deriving DecidableEq

structure Decoding (Obj Member Tag : Type) where
  obj : Obj
  origin : Member → Option Tag
  rest : List UInt8

abbrev Decoder (Obj Member Tag : Type) := ExceptT Failure (StateM (Decoding Obj Member Tag))

def run (d : Decoder Obj Member Tag α) (s : Decoding Obj Member Tag) :
    Except Failure α × Decoding Obj Member Tag :=
  (ExceptT.run d).run s

def refuse : Decoder Obj Member Tag α := throw .refused

def undefined : Decoder Obj Member Tag α := throw .undefined

def take (r : Reader α) : Decoder Obj Member Tag α := do
  let s ← get
  match r.run s.rest with
  | some (a, rest) => set { s with rest := rest }; return a
  | none => refuse

/-- Change the object without assigning a member of it. -/
def adjust (f : Obj → Obj) : Decoder Obj Member Tag Unit :=
  modify fun s => { s with obj := f s.obj }

def assign [DecidableEq Member] (tag : Tag) (m : Member) (f : Obj → Obj) :
    Decoder Obj Member Tag Unit :=
  modify fun s => { s with obj := f s.obj, origin := Function.update s.origin m (some tag) }

def readInto [DecidableEq Member] (tag : Tag) (m : Member) (r : Reader α) (f : α → Obj → Obj) :
    Decoder Obj Member Tag Unit :=
  take r >>= fun a => assign tag m (f a)

section Run

variable {d : Decoder Obj Member Tag α} {f : α → Decoder Obj Member Tag β}
variable {s t : Decoding Obj Member Tag} {a : α} {b : β} {e : Failure}

@[simp] theorem run_pure : run (pure a : Decoder Obj Member Tag α) s = (.ok a, s) := rfl

@[simp] theorem run_refuse : run (refuse : Decoder Obj Member Tag α) s = (.error .refused, s) := rfl

@[simp] theorem run_undefined :
    run (undefined : Decoder Obj Member Tag α) s = (.error .undefined, s) := rfl

@[simp] theorem run_get : run (get : Decoder Obj Member Tag _) s = (.ok s, s) := rfl

@[simp] theorem run_adjust (g : Obj → Obj) :
    run (adjust g : Decoder Obj Member Tag Unit) s = (.ok (), { s with obj := g s.obj }) := rfl

@[simp] theorem run_assign [DecidableEq Member] (tag : Tag) (m : Member) (g : Obj → Obj) :
    run (assign tag m g) s =
      (.ok (), { s with obj := g s.obj, origin := Function.update s.origin m (some tag) }) := rfl

theorem run_bind : run (d >>= f) s =
    match run d s with
    | (.ok a, s') => run (f a) s'
    | (.error e, s') => (.error e, s') := by
  change (ExceptT.run (d >>= f)).run s = _
  rw [ExceptT.run_bind, StateT.run_bind]
  unfold run
  cases h : StateT.run (ExceptT.run d) s with
  | mk x s' => cases x <;> rfl

theorem run_bind_ok (h : run d s = (.ok a, t)) : run (d >>= f) s = run (f a) t := by
  rw [run_bind, h]

theorem run_bind_error (h : run d s = (.error e, t)) : run (d >>= f) s = (.error e, t) := by
  rw [run_bind, h]

/-- What a sequence accepts, its first decoder accepts and then the rest of it. -/
theorem run_bind_eq_ok (h : run (d >>= f) s = (.ok b, t)) :
    ∃ a s', run d s = (.ok a, s') ∧ run (f a) s' = (.ok b, t) := by
  rw [run_bind] at h
  cases hd : run d s with
  | mk x s' =>
    rw [hd] at h
    cases x with
    | ok a => exact ⟨a, s', rfl, h⟩
    | error e => cases h

theorem run_take {r : Reader α} {rest : List UInt8} (h : r.run s.rest = some (a, rest)) :
    run (take r) s = (.ok a, { s with rest := rest }) := by
  rw [take, run_bind_ok run_get, h]
  rfl

theorem run_take_none {r : Reader α} (h : r.run s.rest = none) :
    run (take r) s = (.error .refused, s) := by
  rw [take, run_bind_ok run_get, h]
  rfl

/-- A value is taken, or the bytes are refused. -/
theorem run_take_cases (r : Reader α) (s : Decoding Obj Member Tag) :
    (∃ a rest, r.run s.rest = some (a, rest) ∧ run (take r) s = (.ok a, { s with rest := rest })) ∨
      run (take r) s = (.error .refused, s) := by
  cases h : r.run s.rest with
  | none => exact .inr (run_take_none h)
  | some p => exact .inl ⟨p.1, p.2, rfl, run_take h⟩

theorem run_take_eq_ok {r : Reader α} (h : run (take r) s = (.ok a, t)) :
    ∃ rest, r.run s.rest = some (a, rest) ∧ t = { s with rest := rest } := by
  obtain ⟨a', rest, hr, hrun⟩ | hrun := run_take_cases r s
  · rw [hrun] at h
    cases h
    exact ⟨rest, hr, rfl⟩
  · rw [hrun] at h
    cases h

theorem run_readInto [DecidableEq Member] {tag : Tag} {m : Member} {r : Reader α}
    {g : α → Obj → Obj} {rest : List UInt8} (h : r.run s.rest = some (a, rest)) :
    run (readInto tag m r g) s =
      (.ok (), ⟨g a s.obj, Function.update s.origin m (some tag), rest⟩) := by
  rw [readInto, run_bind_ok (run_take h), run_assign]

end Run

section Reaches

variable {o o' o'' : Obj} {bytes rest rest' : List UInt8} {r : Reader α}

/-- The decoder accepts the bytes: it turns the object into another one and leaves a rest. -/
def Reaches (d : Decoder Obj Member Tag Unit) (o : Obj) (bytes : List UInt8) (o' : Obj)
    (rest : List UInt8) : Prop :=
  ∀ origin, ∃ origin', run d ⟨o, origin, bytes⟩ = (.ok (), ⟨o', origin', rest⟩)

namespace Reaches

theorem bind {d : Decoder Obj Member Tag Unit} {f : Unit → Decoder Obj Member Tag Unit}
    (hd : Reaches d o bytes o' rest) (hf : Reaches (f ()) o' rest o'' rest') :
    Reaches (d >>= f) o bytes o'' rest' := by
  intro origin
  obtain ⟨mid, hmid⟩ := hd origin
  rw [run_bind_ok hmid]
  exact hf mid

theorem take {a : α} {f : α → Decoder Obj Member Tag Unit} (hr : r.run bytes = some (a, rest))
    (hf : Reaches (f a) o rest o' rest') : Reaches (take r >>= f) o bytes o' rest' := by
  intro origin
  rw [run_bind_ok (run_take hr)]
  exact hf origin

theorem pure : Reaches (pure () : Decoder Obj Member Tag Unit) o bytes o bytes :=
  fun origin => ⟨origin, rfl⟩

theorem adjust (g : Obj → Obj) :
    Reaches (adjust g : Decoder Obj Member Tag Unit) o bytes (g o) bytes :=
  fun origin => ⟨origin, rfl⟩

theorem assign [DecidableEq Member] (tag : Tag) (m : Member) (g : Obj → Obj) :
    Reaches (assign tag m g) o bytes (g o) bytes :=
  fun _ => ⟨_, rfl⟩

theorem readInto [DecidableEq Member] {a : α} (hr : r.run bytes = some (a, rest)) (tag : Tag)
    (m : Member) (g : α → Obj → Obj) : Reaches (readInto tag m r g) o bytes (g a o) rest :=
  take hr (assign tag m (g a))

end Reaches

end Reaches

section Follows

variable {d : Decoder Obj Member Tag Unit} {r : Obj → Reader Obj}

/-- The object and the rest of the bytes, where a decoder accepts them. -/
def accepted : Except Failure Unit × Decoding Obj Member Tag → Option (Obj × List UInt8)
  | (.ok _, s) => some (s.obj, s.rest)
  | (.error _, _) => none

theorem accepted_eq_some {r : Except Failure Unit × Decoding Obj Member Tag} {o : Obj}
    {rest : List UInt8} (h : accepted r = some (o, rest)) :
    ∃ s, r = (.ok (), s) ∧ s.obj = o ∧ s.rest = rest := by
  obtain ⟨x, s⟩ := r
  cases x with
  | ok a =>
    obtain ⟨hobj, hrest⟩ := Prod.mk.inj (Option.some.inj h)
    exact ⟨s, rfl, hobj, hrest⟩
  | error e => cases h

theorem accepted_eq_none {r : Except Failure Unit × Decoding Obj Member Tag}
    (h : accepted r = none) : ∃ e s, r = (.error e, s) := by
  obtain ⟨x, s⟩ := r
  cases x with
  | ok a => cases h
  | error e => exact ⟨e, s, rfl⟩

/-- The decoder accepts what the reader does, and turns the object into what is read. -/
def Follows (d : Decoder Obj Member Tag Unit) (r : Obj → Reader Obj) : Prop :=
  ∀ o origin bytes, accepted (run d ⟨o, origin, bytes⟩) = (r o).run bytes

namespace Follows

theorem bind {f : Unit → Decoder Obj Member Tag Unit} {r' : Obj → Reader Obj}
    (hd : Follows d r) (hf : Follows (f ()) r') : Follows (d >>= f) fun o => r o >>= r' := by
  intro o origin bytes
  rw [run_bind, StateT.run_bind, ← hd o origin bytes]
  cases hrun : run d ⟨o, origin, bytes⟩ with
  | mk x s =>
    cases x with
    | ok a => exact hf s.obj s.origin s.rest
    | error e => rfl

theorem take {f : α → Decoder Obj Member Tag Unit} {q : Reader α} {r' : α → Obj → Reader Obj}
    (hf : ∀ a, Follows (f a) (r' a)) : Follows (take q >>= f) fun o => q >>= fun a => r' a o := by
  intro o origin bytes
  rw [StateT.run_bind]
  cases hq : q.run bytes with
  | none =>
    rw [run_bind_error (run_take_none hq)]
    rfl
  | some p =>
    rw [run_bind_ok (run_take (s := ⟨o, origin, bytes⟩) hq)]
    exact hf p.1 o origin p.2

theorem congr {r' : Obj → Reader Obj} (hd : Follows d r) (h : ∀ o, r o = r' o) : Follows d r' :=
  fun o origin bytes => (hd o origin bytes).trans (congrArg (fun q => q.run bytes) (h o))

theorem pure : Follows (pure () : Decoder Obj Member Tag Unit) fun o => pure o := fun _ _ _ => rfl

theorem ite {c : Prop} [Decidable c] {e : Decoder Obj Member Tag Unit} {r' : Obj → Reader Obj}
    (hd : Follows d r) (he : Follows e r') :
    Follows (if c then d else e) fun o => if c then r o else r' o := by
  split
  · exact hd
  · exact he

theorem refuse : Follows (refuse : Decoder Obj Member Tag Unit) fun _ => failure :=
  fun _ _ _ => rfl

theorem adjust (g : Obj → Obj) :
    Follows (adjust g : Decoder Obj Member Tag Unit) fun o => Pure.pure (g o) := fun _ _ _ => rfl

theorem assign [DecidableEq Member] (tag : Tag) (m : Member) (g : Obj → Obj) :
    Follows (assign tag m g) fun o => Pure.pure (g o) := fun _ _ _ => rfl

theorem readInto [DecidableEq Member] (tag : Tag) (m : Member) (q : Reader α) (g : α → Obj → Obj) :
    Follows (readInto tag m q g) fun o => q >>= fun a => Pure.pure (g a o) :=
  take fun a => assign tag m (g a)

end Follows

end Follows

section Within

variable {tag : Tag} {F G : Set Member} {U V : Prop}

/-- The decoder assigns members of `F` only, and does nothing without a meaning unless `U`. -/
structure Within (tag : Tag) (F : Set Member) (U : Prop) (d : Decoder Obj Member Tag α) : Prop where
  origin : ∀ s m, (run d s).2.origin m = s.origin m ∨ m ∈ F ∧ (run d s).2.origin m = some tag
  defined : ∀ s, (run d s).1 = .error .undefined → U

namespace Within

theorem mono {d : Decoder Obj Member Tag α} (h : Within tag F U d) (hF : F ⊆ G) (hU : U → V) :
    Within tag G V d where
  origin s m := (h.origin s m).imp_right fun hm => ⟨hF hm.1, hm.2⟩
  defined s hs := hU (h.defined s hs)

theorem bind {d : Decoder Obj Member Tag α} {f : α → Decoder Obj Member Tag β}
    (hd : Within tag F U d) (hf : ∀ a, Within tag F U (f a)) : Within tag F U (d >>= f) where
  origin s m := by
    have hfirst := hd.origin s m
    rw [run_bind]
    cases hrun : run d s with
    | mk x s' =>
      rw [hrun] at hfirst
      cases x with
      | error e => exact hfirst
      | ok a =>
        rcases (hf a).origin s' m with hsame | hnew
        · rw [hsame]
          exact hfirst
        · exact .inr hnew
  defined s hs := by
    rw [run_bind] at hs
    cases hrun : run d s with
    | mk x s' =>
      rw [hrun] at hs
      cases x with
      | error e =>
        cases hs
        exact hd.defined s (by rw [hrun])
      | ok a => exact (hf a).defined s' hs

theorem pure (a : α) : Within tag F U (pure a : Decoder Obj Member Tag α) :=
  ⟨fun _ _ => .inl rfl, nofun⟩

theorem refuse : Within tag F U (refuse : Decoder Obj Member Tag α) := ⟨fun _ _ => .inl rfl, nofun⟩

theorem undefined (hU : U) : Within tag F U (undefined : Decoder Obj Member Tag α) :=
  ⟨fun _ _ => .inl rfl, fun _ _ => hU⟩

theorem get : Within tag F U (get : Decoder Obj Member Tag _) := ⟨fun _ _ => .inl rfl, nofun⟩

theorem adjust (g : Obj → Obj) : Within tag F U (adjust g : Decoder Obj Member Tag Unit) :=
  ⟨fun _ _ => .inl rfl, nofun⟩

theorem take (r : Reader α) : Within tag F U (take r : Decoder Obj Member Tag α) where
  origin s m := by
    obtain ⟨a, rest, -, hrun⟩ | hrun := run_take_cases r s <;> exact .inl (by rw [hrun])
  defined s hs := by
    obtain ⟨a, rest, -, hrun⟩ | hrun := run_take_cases r s <;> rw [hrun] at hs <;> cases hs

theorem assign [DecidableEq Member] {m : Member} (hm : m ∈ F) (g : Obj → Obj) :
    Within tag F U (assign tag m g) where
  origin s m' := by
    by_cases heq : m' = m
    · subst heq
      exact .inr ⟨hm, by simp⟩
    · exact .inl (by simp [heq])
  defined := nofun

theorem readInto [DecidableEq Member] {m : Member} (hm : m ∈ F) (r : Reader α)
    (g : α → Obj → Obj) : Within tag F U (readInto tag m r g) :=
  (take r).bind fun a => assign hm (g a)

theorem ite {c : Prop} [Decidable c] {d e : Decoder Obj Member Tag α}
    (hd : Within tag F U d) (he : Within tag F U e) : Within tag F U (if c then d else e) := by
  split
  · exact hd
  · exact he

/-- What no decoder has assigned before comes from this one or from none. -/
theorem origin_fresh {d : Decoder Obj Member Tag α} (h : Within tag F U d)
    {s : Decoding Obj Member Tag} (hs : ∀ m, s.origin m = none) (m : Member) :
    (run d s).2.origin m = none ∨ (run d s).2.origin m = some tag := by
  rcases h.origin s m with hsame | ⟨-, hnew⟩
  · exact .inl (hsame.trans (hs m))
  · exact .inr hnew

theorem origin_kept {d : Decoder Obj Member Tag α} (h : Within tag F U d)
    {s : Decoding Obj Member Tag} {m : Member} (hs : s.origin m = some tag) :
    (run d s).2.origin m = some tag := by
  rcases h.origin s m with hsame | ⟨-, hnew⟩
  · exact hsame.trans hs
  · exact hnew

theorem origin_of_notMem {d : Decoder Obj Member Tag α} (h : Within tag F U d)
    {m : Member} (hm : m ∉ F) (s : Decoding Obj Member Tag) :
    (run d s).2.origin m = s.origin m :=
  (h.origin s m).resolve_right fun hnew => hm hnew.1

end Within

end Within

section Keeps

variable {γ : Type} {g : Obj → γ}

/-- The decoder leaves a view of the object as it is, also where it fails. -/
def Keeps (g : Obj → γ) (d : Decoder Obj Member Tag α) : Prop :=
  ∀ s, g (run d s).2.obj = g s.obj

namespace Keeps

theorem bind {d : Decoder Obj Member Tag α} {f : α → Decoder Obj Member Tag β}
    (hd : Keeps g d) (hf : ∀ a, Keeps g (f a)) : Keeps g (d >>= f) := by
  intro s
  have hfirst := hd s
  rw [run_bind]
  cases hrun : run d s with
  | mk x s' =>
    rw [hrun] at hfirst
    cases x with
    | error e => exact hfirst
    | ok a => exact (hf a s').trans hfirst

theorem pure (a : α) : Keeps g (pure a : Decoder Obj Member Tag α) := fun _ => rfl

theorem refuse : Keeps g (refuse : Decoder Obj Member Tag α) := fun _ => rfl

theorem undefined : Keeps g (undefined : Decoder Obj Member Tag α) := fun _ => rfl

theorem get : Keeps g (get : Decoder Obj Member Tag _) := fun _ => rfl

theorem adjust {h : Obj → Obj} (hg : ∀ o, g (h o) = g o) :
    Keeps g (adjust h : Decoder Obj Member Tag Unit) := fun s => hg s.obj

theorem take (r : Reader α) : Keeps g (take r : Decoder Obj Member Tag α) := by
  intro s
  obtain ⟨a, rest, -, hrun⟩ | hrun := run_take_cases r s <;> rw [hrun]

theorem assign [DecidableEq Member] {tag : Tag} {m : Member} {h : Obj → Obj}
    (hg : ∀ o, g (h o) = g o) : Keeps g (assign tag m h) := fun s => hg s.obj

theorem readInto [DecidableEq Member] {tag : Tag} {m : Member} {r : Reader α} {h : α → Obj → Obj}
    (hg : ∀ a o, g (h a o) = g o) : Keeps g (readInto tag m r h) :=
  (take r).bind fun a => assign (hg a)

theorem ite {c : Prop} [Decidable c] {d e : Decoder Obj Member Tag α} (hd : Keeps g d)
    (he : Keeps g e) : Keeps g (if c then d else e) := by
  split
  · exact hd
  · exact he

end Keeps

end Keeps

end BitBay.Decode

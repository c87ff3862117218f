import Mathlib.Data.List.Basic

/-! Programs over a state that leave a log and may stop, and the rules for what they log and return. -/

namespace Sharko.Library

universe u

def Logged (σ ε α : Type) : Type := σ → List ε × Option (α × σ)

namespace Logged

variable {σ ε α β : Type}

instance : Monad (Logged σ ε) where
  pure a := fun s => ([],some (a,s))
  bind x f := fun s =>
    match x s with
    | (log,none) => (log,none)
    | (log,some (a,s)) => (log ++ (f a s).1,(f a s).2)

def log (entries : List ε) : Logged σ ε Unit := fun s => (entries,some ((),s))

def stop : Logged σ ε α := fun _ => ([],none)

def act (f : σ → α × σ) : Logged σ ε α := fun s => ([],some (f s))

def look (f : σ → α) : Logged σ ε α := act fun s => (f s,s)

def change (f : σ → σ) : Logged σ ε Unit := act fun s => ((),f s)

def Ends (x : Logged σ ε α) (post : List ε → α → Prop) : Prop :=
  ∀ s a t,(x s).2 = some (a,t) → post (x s).1 a

def Total (x : Logged σ ε α) : Prop := ∀ s,(x s).2.isSome = true

section rules

variable {x : Logged σ ε α} {f : α → Logged σ ε β} {post : List ε → α → Prop}

theorem bind_of_none {s : σ} (h : (x s).2 = none) : (x >>= f) s = ((x s).1,none) := by
  rcases e : x s with ⟨log,_ | r⟩
  · simp [bind,e]
  · simp [e] at h

theorem bind_of_some {s t : σ} {a : α} (h : (x s).2 = some (a,t)) :
    (x >>= f) s = ((x s).1 ++ (f a t).1,(f a t).2) := by
  rcases e : x s with ⟨log,_ | r⟩
  · simp [e] at h
  · obtain rfl : r = (a,t) := by simpa [e] using h
    simp [bind,e]

theorem bind_pure_self (x : Logged σ ε α) : x >>= pure = x := by
  funext s
  rcases e : (x s).2 with _ | ⟨a,t⟩
  · rw [bind_of_none e,← e]
  · rw [bind_of_some e]
    simp [pure,← e]

theorem pure_bind_self (a : α) (f : α → Logged σ ε β) : pure a >>= f = f a := by
  funext s
  rw [bind_of_some (rfl : ((pure a : Logged σ ε α) s).2 = some (a,s))]
  simp [pure]

theorem bind_assoc_self {γ : Type} (x : Logged σ ε α) (f : α → Logged σ ε β) (g : β → Logged σ ε γ) :
    x >>= f >>= g = x >>= fun a => f a >>= g := by
  funext s
  rcases e : (x s).2 with _ | ⟨a,t⟩
  · have e' : ((x >>= f) s).2 = none := by rw [bind_of_none e]
    rw [bind_of_none e',bind_of_none e,bind_of_none e]
  rw [bind_of_some (f := fun a => f a >>= g) e]
  rcases e' : (f a t).2 with _ | ⟨b,t'⟩
  · have e'' : ((x >>= f) s).2 = none := by rw [bind_of_some e,e']
    rw [bind_of_none e'',bind_of_some e,bind_of_none e']
  · have e'' : ((x >>= f) s).2 = some (b,t') := by rw [bind_of_some e,e']
    rw [bind_of_some e'',bind_of_some e,bind_of_some e',List.append_assoc]

instance : LawfulMonad (Logged σ ε) :=
  LawfulMonad.mk' _ bind_pure_self pure_bind_self bind_assoc_self

theorem bind_isSome {s : σ} (h : ((x >>= f) s).2.isSome = true) :
    ∃ a t,(x s).2 = some (a,t) ∧ ((f a t)).2.isSome = true := by
  rcases e : (x s).2 with _ | ⟨a,t⟩
  · rw [bind_of_none e] at h
    cases h
  · rw [bind_of_some e] at h
    exact ⟨a,t,rfl,h⟩

theorem Ends.mono {post' : List ε → α → Prop} (h : Ends x post) (imp : ∀ l a,post l a → post' l a) :
    Ends x post' :=
  fun s a t e => imp _ _ (h s a t e)

theorem ends_pure {a : α} : Ends (pure a : Logged σ ε α) fun l b => l = [] ∧ b = a := by
  rintro s b t ⟨⟩
  exact ⟨rfl,rfl⟩

theorem Ends.bind {post' : List ε → β → Prop} (h : Ends x post)
    (h' : ∀ l a,post l a → Ends (f a) fun l' b => post' (l ++ l') b) : Ends (x >>= f) post' := by
  intro s b t e
  rcases ex : (x s).2 with _ | ⟨a,s'⟩
  · rw [bind_of_none ex] at e
    cases e
  · rw [bind_of_some ex] at e ⊢
    exact h' _ _ (h s a s' ex) s' b t e

theorem ends_log (entries : List ε) : Ends (log entries : Logged σ ε Unit) fun l _ => l = entries := by
  rintro s a t ⟨⟩
  rfl

theorem ends_stop {post : List ε → α → Prop} : Ends (stop : Logged σ ε α) post := by
  rintro s a t ⟨⟩

theorem ends_act (f : σ → α × σ) : Ends (act f : Logged σ ε α) fun l _ => l = [] := by
  rintro s a t -
  rfl

theorem ends_look (f : σ → α) : Ends (look f : Logged σ ε α) fun l _ => l = [] := ends_act _

theorem ends_change (f : σ → σ) : Ends (change f : Logged σ ε Unit) fun l _ => l = [] := ends_act _

theorem total_pure (a : α) : Total (pure a : Logged σ ε α) := fun _ => rfl

theorem total_log (entries : List ε) : Total (log entries : Logged σ ε Unit) := fun _ => rfl

theorem total_act (f : σ → α × σ) : Total (act f : Logged σ ε α) := fun _ => rfl

theorem total_look (f : σ → α) : Total (look f : Logged σ ε α) := fun _ => rfl

theorem total_change (f : σ → σ) : Total (change f : Logged σ ε Unit) := fun _ => rfl

theorem Total.bind (total : Total x) (h : Ends x post) (h' : ∀ l a,post l a → Total (f a)) :
    Total (x >>= f) := by
  intro s
  obtain ⟨⟨a,t⟩,e⟩ := Option.isSome_iff_exists.mp (total s)
  rw [bind_of_some e]
  exact h' _ _ (h s a t e) t

theorem Total.andThen (total : Total x) (h : ∀ a,Total (f a)) : Total (x >>= f) :=
  @Total.bind _ _ _ _ _ _ (fun _ _ => True) total (fun _ _ _ _ => trivial) fun _ a _ => h a

end rules

section folds

variable {γ : Type}

theorem total_foldlM {f : β → γ → Logged σ ε β} {P : β → Prop}
    (total : ∀ b g,P b → Total (f b g)) (step : ∀ b g,P b → Ends (f b g) fun _ b' => P b')
    (gs : List γ) (b : β) (hb : P b) : Total (gs.foldlM f b) := by
  induction gs generalizing b with
  | nil => exact total_pure b
  | cons g gs ih =>
    rw [List.foldlM_cons]
    exact (total b g hb).bind (step b g hb) fun _ b' hb' => ih b' hb'

theorem total_mapM {f : γ → Logged σ ε β} (gs : List γ) (h : ∀ g ∈ gs,Total (f g)) : Total (gs.mapM f) := by
  induction gs with
  | nil => exact total_pure _
  | cons g gs ih =>
    rw [List.mapM_cons]
    refine (h g List.mem_cons_self).andThen fun b => ?_
    exact (ih fun g hg => h g (List.mem_cons_of_mem _ hg)).andThen fun bs => total_pure _

theorem mapM_isSome {f : γ → Logged σ ε β} {gs : List γ} {s : σ}
    (h : ((gs.mapM f) s).2.isSome = true) : ∀ g ∈ gs,∃ t,((f g) t).2.isSome = true := by
  induction gs generalizing s with
  | nil => simp
  | cons g gs ih =>
    rw [List.mapM_cons] at h
    obtain ⟨b,t,eb,h⟩ := bind_isSome h
    obtain ⟨bs,t',ebs,-⟩ := bind_isSome h
    rintro g' (_ | ⟨_,mem⟩)
    · exact ⟨s,by rw [eb]; rfl⟩
    · exact ih (s := t) (by rw [ebs]; rfl) g' mem

end folds

end Logged

end Sharko.Library

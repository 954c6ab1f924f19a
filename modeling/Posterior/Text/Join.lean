set_option autoImplicit false

namespace Posterior.Text

def join (separator : String) : List String → String
  | [] => ""
  | s :: rest => rest.foldl (fun text t => text ++ separator ++ t) s

private theorem foldl_join (separator s t : String) (rest : List String) :
    rest.foldl (fun text u => text ++ separator ++ u) (s ++ t) =
      s ++ rest.foldl (fun text u => text ++ separator ++ u) t := by
  induction rest generalizing t with
  | nil => rfl
  | cons u rest ih =>
    have h : s ++ t ++ separator ++ u = s ++ (t ++ separator ++ u) := by
      simp only [String.append_assoc]
    rw [List.foldl_cons, List.foldl_cons, h, ih]

@[simp] theorem join_nil (separator : String) : join separator [] = "" := rfl

@[simp] theorem join_singleton (separator s : String) : join separator [s] = s := rfl

theorem join_cons_cons (separator s t : String) (rest : List String) :
    join separator (s :: t :: rest) = s ++ separator ++ join separator (t :: rest) :=
  foldl_join separator (s ++ separator) t rest

end Posterior.Text

namespace MiniLisp.Prelude

def negation : String :=
  "(def! not (fn* (a) (if a false true)))"

/-- The line feed ends a comment on the last line of the file. -/
def loadFile : String :=
  "(def! load-file (fn* (f) (eval (read-string (str \"(do \" (slurp f) \"\\nnil)\")))))"

def gensymCounter : String :=
  "(def! *gensym-counter* (atom 0))"

def gensym : String :=
  "(def! gensym (fn* ()
     (symbol (str \"G__\" (swap! *gensym-counter* (fn* [x] (+ 1 x)))))))"

def cond : String :=
  "(defmacro! cond (fn* (& xs)
     (if (> (count xs) 0)
       (list 'if (first xs)
             (if (> (count xs) 1) (nth xs 1) (throw \"odd number of forms to cond\"))
             (cons 'cond (rest (rest xs)))))))"

def disjunction : String :=
  "(defmacro! or (fn* (& xs)
     (if (empty? xs)
       nil
       (if (= 1 (count xs))
         (first xs)
         (let* (condvar (gensym))
           `(let* (~condvar ~(first xs))
              (if ~condvar ~condvar (or ~@(rest xs)))))))))"

def conjunction : String :=
  "(defmacro! and (fn* (& xs)
     (if (empty? xs)
       true
       (if (= 1 (count xs))
         (first xs)
         (let* (condvar (gensym))
           `(let* (~condvar ~(first xs))
              (if ~condvar (and ~@(rest xs)) ~condvar)))))))"

def conditional : String :=
  "(defmacro! when (fn* (test & body) `(if ~test (do ~@body))))"

def threadFirst : String :=
  "(defmacro! -> (fn* (x & forms)
     (if (empty? forms)
       x
       (let* (form (first forms)
              threaded (if (list? form) `(~(first form) ~x ~@(rest form)) (list form x)))
         `(-> ~threaded ~@(rest forms))))))"

def threadLast : String :=
  "(defmacro! ->> (fn* (x & forms)
     (if (empty? forms)
       x
       (let* (form (first forms)
              threaded (if (list? form) `(~@form ~x) (list form x)))
         `(->> ~threaded ~@(rest forms))))))"

/-- What is written in the language itself of every global scope, one definition a text, in the order in
which they are made. -/
def all : List String :=
  [negation, loadFile, gensymCounter, gensym, cond, disjunction, conjunction, conditional,
   threadFirst, threadLast]

end MiniLisp.Prelude

/-! Primitives, scanning and printing in the generated program. -/
namespace StagedLisp.Support

def helpers : List String := [
  "",
  "/* Primitive helpers */",
  "static long int_of(Obj* x) \x7b",
  "    return (x && !x->is_pair) ? x->i : 0;",
  "\x7d",
  "",
  "static int is_true(Obj* x) \x7b",
  "    return x && (x->is_pair || x->i != 0);",
  "\x7d",
  "",
  "static Obj* add(Obj* a, Obj* b) \x7b return mk_int(int_of(a) + int_of(b)); \x7d",
  "static Obj* sub(Obj* a, Obj* b) \x7b return mk_int(int_of(a) - int_of(b)); \x7d",
  "static Obj* mul(Obj* a, Obj* b) \x7b return mk_int(int_of(a) * int_of(b)); \x7d",
  "",
  "static Obj* div_op(Obj* a, Obj* b) \x7b",
  "    if (int_of(b) == 0) \x7b",
  "        fprintf(stderr, \"division by zero\\n\");",
  "        return mk_int(0);",
  "    \x7d",
  "    return mk_int(int_of(a) / int_of(b));",
  "\x7d",
  "",
  "static Obj* mod_op(Obj* a, Obj* b) \x7b",
  "    if (int_of(b) == 0) \x7b",
  "        fprintf(stderr, \"division by zero\\n\");",
  "        return mk_int(0);",
  "    \x7d",
  "    return mk_int(int_of(a) % int_of(b));",
  "\x7d",
  "",
  "static Obj* lt_op(Obj* a, Obj* b) \x7b return mk_int(int_of(a) < int_of(b)); \x7d",
  "static Obj* gt_op(Obj* a, Obj* b) \x7b return mk_int(int_of(a) > int_of(b)); \x7d",
  "static Obj* le_op(Obj* a, Obj* b) \x7b return mk_int(int_of(a) <= int_of(b)); \x7d",
  "static Obj* ge_op(Obj* a, Obj* b) \x7b return mk_int(int_of(a) >= int_of(b)); \x7d",
  "static Obj* num_eq(Obj* a, Obj* b) \x7b return mk_int(int_of(a) == int_of(b)); \x7d",
  "static Obj* not_op(Obj* a) \x7b return mk_int(!is_true(a)); \x7d",
  "static Obj* is_nil(Obj* a) \x7b return mk_int(a == NULL); \x7d",
  "static Obj* is_pair(Obj* a) \x7b return mk_int(a != NULL && a->is_pair); \x7d",
  "",
  "static Obj* eq_op(Obj* a, Obj* b) \x7b",
  "    if (a == b) return mk_int(1);",
  "    if (a && b && !a->is_pair && !b->is_pair) return mk_int(a->i == b->i);",
  "    return mk_int(0);",
  "\x7d",
  "",
  "static Obj* car(Obj* x) \x7b",
  "    if (!x || !x->is_pair) \x7b",
  "        fprintf(stderr, \"car of non-cons\\n\");",
  "        return NULL;",
  "    \x7d",
  "    return x->a;",
  "\x7d",
  "",
  "static Obj* cdr(Obj* x) \x7b",
  "    if (!x || !x->is_pair) \x7b",
  "        fprintf(stderr, \"cdr of non-cons\\n\");",
  "        return NULL;",
  "    \x7d",
  "    return x->b;",
  "\x7d",
  "",
  "static void scan_mark(Obj* x, int mark) \x7b",
  "    while (x && x->mark != mark) \x7b",
  "        x->mark = mark;",
  "        if (!x->is_pair) return;",
  "        scan_mark(x->a, mark);",
  "        x = x->b;",
  "    \x7d",
  "\x7d",
  "",
  "static Obj* scan_obj(Obj* x) \x7b",
  "    scan_mark(x, 1);",
  "    scan_mark(x, 0);",
  "    return x;",
  "\x7d",
  "",
  "static void print_obj(Obj* x) \x7b",
  "    if (!x) \x7b",
  "        printf(\"()\");",
  "        return;",
  "    \x7d",
  "    if (!x->is_pair) \x7b",
  "        printf(\"%ld\", x->i);",
  "        return;",
  "    \x7d",
  "    printf(\"(\");",
  "    print_obj(x->a);",
  "    x = x->b;",
  "    while (x && x->is_pair) \x7b",
  "        printf(\" \");",
  "        print_obj(x->a);",
  "        x = x->b;",
  "    \x7d",
  "    if (x) \x7b",
  "        printf(\" . \");",
  "        print_obj(x);",
  "    \x7d",
  "    printf(\")\");",
  "\x7d"]

end StagedLisp.Support

import Tbf.Library.Text

/-!
# Functions that need no stub

The names that count as defined in every program.
-/

namespace Tbf
open Text

def GCC_BUILTINS : List String :=
  ["cos", "sin", "tan", "acos", "asin", "atan", "atan2", "cosh", "sinh", "tanh", "acosh", "asinh", "atanh", "exp",
    "frexp", "ldexp", "log", "log10", "modf", "exp2", "expm1", "iologb", "log1p", "log2", "logb", "scalbn",
    "scalbln", "pow", "sqrt", "cbrt", "hypot", "erf", "erfc", "tgamma", "lgamma", "ceil", "floor", "fmod", "trunc",
    "round", "lround", "llround", "rint", "lrint", "nearbyint", "remainder", "remquo", "copysing", "nan", "nanf",
    "nanl", "nextafter", "nettoward", "fdim", "fmax", "fmal", "fmin", "fabs", "abs", "fma", "fpclassify",
    "fpclassifyf", "fpclassifyl", "isfinite", "isfinitef", "isfinitel", "finite", "finitef", "finitel", "isinf",
    "isinff", "isinfl", "isnan", "isnanf", "isnanl", "isnormal", "signbit", "signbitf", "signbitl", "isgreater",
    "isgreaterequal", "isless", "islessequal", "islessgreater", "isunordered", "_Exit", "acoshf", "acoshl", "acosh",
    "asinhf", "asinhl", "asinh", "atanhf", "atanhl", "atanh", "cabsf", "cabsl", "cabs", "cacosf", "cacoshf",
    "cacoshl", "cacosh", "cacosl", "cacos", "cargf", "cargl", "carg", "casinf", "casinhf", "casinhl", "casinh",
    "casinl", "casin", "catanf", "catanhf", "catanhl", "catanh", "catanl", "catan", "cbrtf", "cbrtl", "cbrt",
    "ccosf", "ccoshf", "ccoshl", "ccosh", "ccosl", "ccos", "cexpf", "cexpl", "cexp", "cimagf", "cimagl", "cimag",
    "clogf", "clogl", "clog", "conjf", "conjl", "conj", "copysignf", "copysignl", "copysign", "cpowf", "cpowl",
    "cpow", "cprojf", "cprojl", "cproj", "crealf", "creall", "creal", "csinf", "csinhf", "csinhl", "csinh", "csinl",
    "csin", "csqrtf", "csqrtl", "csqrt", "ctanf", "ctanhf", "ctanhl", "ctanh", "ctanl", "ctan", "erfcf", "erfcl",
    "erfc", "erff", "erfl", "erf", "exp2f", "exp2l", "exp2", "expm1f", "expm1l", "expm1", "fdimf", "fdiml", "fdim",
    "fmaf", "fmal", "fmaxf", "fmaxl", "fmax", "fma", "fminf", "fminl", "fmin", "hypotf", "hypotl", "hypot", "ilogbf",
    "ilogbl", "ilogb", "imaxabs", "isblank", "iswblank", "lgammaf", "lgammal", "lgamma", "llabs", "llrintf",
    "llrintl", "llrint", "llroundf", "llroundl", "llround", "log1pf", "log1pl", "log1p", "log2f", "log2l", "log2",
    "logbf", "logbl", "logb", "lrintf", "lrintl", "lrint", "lroundf", "lroundl", "lround", "nearbyintf",
    "nearbyintl", "nearbyint", "nextafterf", "nextafterl", "nextafter", "nexttowardf", "nexttowardl", "nexttoward",
    "remainderf", "remainderl", "remainder", "remquof", "remquol", "remquo", "rintf", "rintl", "rint", "roundf",
    "roundl", "round", "scalblnf", "scalblnl", "scalbln", "scalbnf", "scalbnl", "scalbn", "snprintf", "tgammaf",
    "tgammal", "tgamma", "truncf", "truncl", "trunc", "vfscanf", "vscanf", "vsnprintf", "acosf", "acosl", "asinf",
    "asinl", "atan2f", "atan2l", "atanf", "atanl", "ceilf", "ceill", "cosf", "coshf", "coshl", "cosl", "expf",
    "expl", "fabsf", "fabsl", "floorf", "floorl", "fmodf", "fmodl", "frexpf", "frexpl", "ldexpf", "ldexpl", "log10f",
    "log10l", "logf", "logl", "modfl", "modf", "powf", "powl", "sinf", "sinhf", "sinhl", "sinl", "sqrtf", "sqrtl",
    "tanf", "tanhf", "tanhl", "tanl", "_exit", "alloca", "bcmp", "bzero", "dcgettext", "dgettext", "dremf", "dreml",
    "drem", "exp10f", "exp10l", "exp10", "ffsll", "ffs", "fprintf_unlocked", "fputs_unlocked", "gammaf", "gammal",
    "gamma", "gammaf_r", "gammal_r", "gamma_r", "gettext", "index", "isascii", "j0f", "j0l", "j0", "j1f", "j1l",
    "j1", "jnf", "jnl", "jn", "lgammaf_r", "lgammal_r", "lgamma_r", "mempcpy", "pow10f", "pow10l", "pow10",
    "printf_unlocked", "rindex", "scalbf", "scalbl", "scalb", "signbit", "signbitf", "signbitl", "signbitd32",
    "signbitd64", "signbitd128", "significandf", "significandl", "significand", "sincosf", "sincosl", "sincos",
    "stpcpy", "stpncpy", "strcasecmp", "strdup", "strfmon", "strncasecmp", "strndup", "toascii", "y0f", "y0l", "y0",
    "y1f", "y1l", "y1", "ynf", "ynl", "yn", "abort", "abs", "acos", "asin", "atan2", "atan", "calloc", "ceil",
    "cosh", "cos", "exit", "exp", "fabs", "floor", "fmod", "fprintf", "fputs", "frexp", "fscanf", "labs", "ldexp",
    "log10", "log", "malloc", "memcmp", "memcpy", "memset", "modf", "modff", "modfl", "pow", "printf", "putchar",
    "puts", "scanf", "sinh", "sin", "snprintf", "sprintf", "sqrt", "sscanf", "strcat", "strchr", "strcmp", "strcpy",
    "strcspn", "strlen", "strncat", "strncmp", "strncpy", "strpbrk", "strrchr", "strspn", "strstr", "tanh", "tan",
    "vfprintf", "vprintf", "vsprintf"]

/-- The names of the list `IMPLICIT_FUNCTIONS` that stand in it one by one. -/
def implicitNames : List String :=
  ["__VERIFIER_assume", "fclose", "clearerr", "feof", "ferror", "fflush", "fgetpos", "fopen", "fread", "freopen",
    "fseek", "fsetpos", "ftell", "fwrite", "remove", "rename", "rewind", "setbuf", "setvbuf", "tmpfile", "tmpnam",
    "fprintf", "printf", "sprintf", "vfprintf", "vprintf", "vsprintf", "fscanf", "scanf", "sscanf", "fgetc", "fgets",
    "fputc", "fputs", "getc", "getchar", "gets", "putc", "putchar", "puts", "ungetc", "perror", "atoi", "atof",
    "atol", "atoll", "strtod", "strtol", "strtoll", "strtoq", "strtold", "strtof", "strtoul", "strtoull", "calloc",
    "free", "malloc", "realloc", "alloca", "valloc", "abort", "atexit", "exit", "getenv", "system", "bsearch",
    "qsort", "abs", "div", "labs", "ldiv", "mblen", "mbstowcs", "mbtowc", "wcstombs", "wctomb", "memchr", "memcmp",
    "memcpy", "memmove", "memset", "strcat", "strncat", "strchr", "strcmp", "strncmp", "strcoll", "strcpy",
    "strncpy", "strcspn", "strerror", "strlen", "strpbrk", "strrchr", "strspn", "strstr", "strtok", "strxfrm",
    "feclearexcpt", "feraiseexcept", "fegetexceptflag", "fesetexceptflag", "fegetround", "fesetround", "fegetenv",
    "fesetenv", "feholdexcept", "feupdateenv", "fetestexcept", "__underflow", "__uflow", "__overflow", "_IO_getc",
    "_IO_putc", "_IO_feof", "_IO_ferror", "_IO_peekc_locked", "_IO_flockfile", "_IO_funlockfile", "_IO_ftrylockfile",
    "_IO_vfscanf", "_IO_fprintf", "_IO_padn", "_IO_seekoff", "_IO_seekpos", "_IO_free_backup_area"]

def IMPLICIT_FUNCTIONS : List Str :=
  (implicitNames ++ GCC_BUILTINS ++ GCC_BUILTINS.map ("__" ++ ·) ++ GCC_BUILTINS.map ("__builtin__" ++ ·)).map String.toList

end Tbf
